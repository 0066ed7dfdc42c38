import Ebnf.Name
import Ebnf.Terminal

/-! Grammar symbols. Besides terminals, non-terminals and the empty word there is EBNF
shorthand: brackets around a sequence, and alternatives. The contents of brackets and the
list of alternatives are never empty.

A bar is not a symbol. It separates alternatives while a sequence is being written, so it
occurs in items only, and those make up the branches of an alternative as they were given. -/
namespace Ebnf

/-- The shorthand that encloses one sequence: `( … )`, `[ … ]`, and the braces of a
repetition. -/
inductive Bracket where
  | group
  | option
  | repetition
  deriving DecidableEq

mutual

/-- A grammar symbol. -/
inductive Symbol where
  | terminal (t : Terminal)
  | nonTerminal (name : Name)
  | epsilon
  | bracket (kind : Bracket) (lead : Symbol) (rest : List Symbol)
  | alternative (first : List Item) (others : List (List Item))

/-- What a sequence is written with: symbols, and bars between alternatives. -/
inductive Item where
  | symbol (s : Symbol)
  | bar

end

mutual

/-- Symbols are equal when they are built in the same way. -/
def Symbol.same : Symbol → Symbol → Bool
  | .terminal s, .terminal t => s == t
  | .nonTerminal a, .nonTerminal b => a == b
  | .epsilon, .epsilon => true
  | .bracket k a as, .bracket l b bs => k == l && a.same b && Symbol.sameAll as bs
  | .alternative f fs, .alternative g gs => Item.sameAll f g && Item.sameBranches fs gs
  | _, _ => false

def Symbol.sameAll : List Symbol → List Symbol → Bool
  | [], [] => true
  | a :: as, b :: bs => a.same b && Symbol.sameAll as bs
  | _, _ => false

def Item.sameAll : List Item → List Item → Bool
  | [], [] => true
  | .bar :: as, .bar :: bs => Item.sameAll as bs
  | .symbol a :: as, .symbol b :: bs => a.same b && Item.sameAll as bs
  | _, _ => false

def Item.sameBranches : List (List Item) → List (List Item) → Bool
  | [], [] => true
  | a :: as, b :: bs => Item.sameAll a b && Item.sameBranches as bs
  | _, _ => false

end

mutual

theorem Symbol.same_iff : (a b : Symbol) → (a.same b = true ↔ a = b)
  | .terminal _, b => by cases b <;> simp [Symbol.same]
  | .nonTerminal _, b => by cases b <;> simp [Symbol.same]
  | .epsilon, b => by cases b <;> simp [Symbol.same]
  | .bracket _ a as, b => by
    cases b <;> simp [Symbol.same, Symbol.same_iff a, Symbol.sameAll_iff as, and_assoc]
  | .alternative f fs, b => by
    cases b <;> simp [Symbol.same, Item.sameAll_iff f, Item.sameBranches_iff fs]

theorem Symbol.sameAll_iff : (as bs : List Symbol) → (Symbol.sameAll as bs = true ↔ as = bs)
  | [], bs => by cases bs <;> simp [Symbol.sameAll]
  | a :: as, bs => by
    cases bs <;> simp [Symbol.sameAll, Symbol.same_iff a, Symbol.sameAll_iff as]

theorem Item.sameAll_iff : (as bs : List Item) → (Item.sameAll as bs = true ↔ as = bs)
  | [], bs => by cases bs <;> simp [Item.sameAll]
  | .bar :: as, bs => by
    rcases bs with _ | ⟨_ | _, _⟩ <;> simp [Item.sameAll, Item.sameAll_iff as]
  | .symbol a :: as, bs => by
    rcases bs with _ | ⟨_ | _, _⟩ <;>
      simp [Item.sameAll, Symbol.same_iff a, Item.sameAll_iff as]

theorem Item.sameBranches_iff :
    (as bs : List (List Item)) → (Item.sameBranches as bs = true ↔ as = bs)
  | [], bs => by cases bs <;> simp [Item.sameBranches]
  | a :: as, bs => by
    cases bs <;> simp [Item.sameBranches, Item.sameAll_iff a, Item.sameBranches_iff as]

end

instance : DecidableEq Symbol := fun a b => decidable_of_iff _ (Symbol.same_iff a b)

instance : DecidableEq Item
  | .bar, .bar => isTrue rfl
  | .symbol a, .symbol b => decidable_of_iff (a = b) (by simp)
  | .bar, .symbol _ => isFalse (by simp)
  | .symbol _, .bar => isFalse (by simp)

mutual

/-- The names of the non-terminals in a symbol, at any depth, as often as they occur. -/
def Symbol.names : Symbol → List Name
  | .terminal _ | .epsilon => []
  | .nonTerminal name => [name]
  | .bracket _ lead rest => lead.names ++ Symbol.namesIn rest
  | .alternative first others => Item.namesIn first ++ Item.namesInAll others

/-- The names in a sequence of symbols. -/
def Symbol.namesIn : List Symbol → List Name
  | [] => []
  | s :: rest => s.names ++ Symbol.namesIn rest

def Item.namesIn : List Item → List Name
  | [] => []
  | .bar :: rest => Item.namesIn rest
  | .symbol s :: rest => s.names ++ Item.namesIn rest

def Item.namesInAll : List (List Item) → List Name
  | [] => []
  | branch :: rest => Item.namesIn branch ++ Item.namesInAll rest

end

namespace Symbol

/-- Whether a symbol is EBNF shorthand, which has to be expanded before a grammar is analysed. -/
def isShorthand : Symbol → Bool
  | .bracket .. | .alternative .. => true
  | _ => false

def terminal? : Symbol → Option Terminal
  | .terminal t => some t
  | _ => none

/-- The name of the non-terminal that a symbol is, if it is one. -/
def name? : Symbol → Option Name
  | .nonTerminal name => some name
  | _ => none

def isNonTerminal (s : Symbol) : Bool := s.name?.isSome

end Symbol

def Item.symbol? : Item → Option Symbol
  | .symbol s => some s
  | .bar => none

end Ebnf
