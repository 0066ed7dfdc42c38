import Ebnf.Grammar.Basic

/-! What the rounds of a pass are counted against: how long the bodies of a grammar are, and how
much there is in them to be taken apart. -/
namespace Ebnf

/-- What there is to be taken apart: shorthand, and the bars in the branches of alternatives. A
branch with bars is folded into another alternative once it becomes a body of its own. -/
inductive Mark where
  | shorthand
  | bar
  deriving DecidableEq

mutual

/-- The marks in a symbol, at any depth, in the order in which they are written. -/
def Symbol.marks : Symbol → List Mark
  | .terminal _ | .nonTerminal _ | .epsilon => []
  | .bracket _ lead rest => .shorthand :: (lead.marks ++ Symbol.marksIn rest)
  | .alternative first others => .shorthand :: (Item.marksIn first ++ Item.marksInAll others)

/-- The marks in a sequence of symbols. -/
def Symbol.marksIn : List Symbol → List Mark
  | [] => []
  | s :: rest => s.marks ++ Symbol.marksIn rest

def Item.marksIn : List Item → List Mark
  | [] => []
  | .bar :: rest => .bar :: Item.marksIn rest
  | .symbol s :: rest => s.marks ++ Item.marksIn rest

def Item.marksInAll : List (List Item) → List Mark
  | [] => []
  | branch :: rest => Item.marksIn branch ++ Item.marksInAll rest

end

def Rule.marks (r : Rule) : List Mark := Symbol.marksIn r.body

namespace Grammar

def marks (g : Grammar) : List Mark := g.rules.flatMap Rule.marks

/-- The size of the largest rule. -/
def largest (size : Rule → Nat) (g : Grammar) : Nat := (g.rules.map size).foldr max 0

theorem largest_le_iff {size : Rule → Nat} {g : Grammar} {k : Nat} :
    g.largest size ≤ k ↔ ∀ rule ∈ g.rules, size rule ≤ k := by
  rw [largest]
  induction g.rules with
  | nil => simp
  | cons rule rest ih =>
    rw [List.map_cons, List.foldr_cons, Nat.max_le, ih, List.forall_mem_cons]

theorem le_largest (size : Rule → Nat) {g : Grammar} {rule : Rule} (member : rule ∈ g.rules) :
    size rule ≤ g.largest size :=
  largest_le_iff.mp (Nat.le_refl _) rule member

end Grammar

end Ebnf
