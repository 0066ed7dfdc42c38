import Ebnf.Failure
import Ebnf.Index

/-! Edits of a grammar. A rule that is named by its value means its first occurrence. -/
namespace Ebnf

/-- Puts a list in the place of the first occurrence of an element. -/
def replaceFirst {α : Type} [DecidableEq α] (a : α) (bs : List α) : List α → List α
  | [] => []
  | x :: rest => if x = a then bs ++ rest else x :: replaceFirst a bs rest

namespace Grammar

def add (g : Grammar) (rules : List Rule) : Grammar := { g with rules := g.rules ++ rules }

def insertAt (g : Grammar) (position : Nat) (rules : List Rule) : Grammar :=
  { g with rules := g.rules.take position ++ rules ++ g.rules.drop position }

def erase (g : Grammar) (rule : Rule) : Except Fault Grammar :=
  if rule ∈ g.rules then .ok { g with rules := g.rules.erase rule } else .error .missingRule

def replace (g : Grammar) (rule : Rule) (replacements : List Rule) : Except Fault Grammar :=
  if rule ∈ g.rules then .ok { g with rules := replaceFirst rule replacements g.rules }
  else .error .missingRule

def ruleAt (g : Grammar) (index : Int) : Except Fault Rule :=
  match elementAt? g.rules index with
  | some rule => .ok rule
  | none => .error .indexOutOfRange

/-- Takes out the rule at an index, and gives it along with the grammar that is left. -/
def removeAt (g : Grammar) (index : Int) : Except Fault (Rule × Grammar) :=
  match place? index g.rules.length, elementAt? g.rules index with
  | some place, some rule => .ok (rule, { g with rules := g.rules.eraseIdx place })
  | _, _ => .error .indexOutOfRange

def retain (g : Grammar) (keep : Name → Bool) : Grammar :=
  { g with rules := g.rules.filter (fun rule => keep rule.head) }

def dropped (g : Grammar) (keep : Name → Bool) : List Rule :=
  g.rules.filter (fun rule => !keep rule.head)

def withStart (g : Grammar) (start : Option Name) : Grammar := { g with start }

end Grammar

end Ebnf
