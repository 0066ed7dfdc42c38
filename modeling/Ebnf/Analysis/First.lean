import Ebnf.Analysis.Saturation
import Ebnf.Failure

/-! FIRST sets: the terminals that can begin what a non-terminal derives, and whether it derives
the empty word. Both are least sets. A non-terminal is nullable if all of one of its bodies can
vanish, and a terminal begins it if it begins one of its bodies, past symbols that can vanish. The
terminals do not depend on each other, so the heads of each are found on their own. -/
namespace Ebnf

/-- The terminals that can begin what a non-terminal derives, in order and each once, and whether
it derives the empty word. -/
structure FirstSet where
  symbol : Name
  terminals : List Terminal
  containsEpsilon : Bool
  deriving DecidableEq

namespace FirstSet

def of (symbol : Name) (terminals : List Terminal) (containsEpsilon : Bool) : FirstSet :=
  ⟨symbol, Terminal.listing terminals, containsEpsilon⟩

def overlaps (s t : FirstSet) : Bool :=
  s.terminals.any (· ∈ t.terminals) || (s.containsEpsilon && t.containsEpsilon)

/-- The text of a set: the texts of its terminals in order, and then ε if it is in the set. -/
def text (s : FirstSet) : String :=
  let texts := (s.terminals.map Terminal.text).mergeSort ++
    (if s.containsEpsilon then [emptyWordSign] else [])
  s!"FIRST({s.symbol.text}) = \x7b" ++ ", ".intercalate texts ++ "\x7d"

end FirstSet

/-- Whether a sentence without shorthand can vanish, given the nullable non-terminals. -/
def Sentence.vanishes (nullable : List Name) (s : Sentence) : Bool :=
  s.all fun symbol =>
    match symbol with
    | .epsilon => true
    | .nonTerminal name => name ∈ nullable
    | _ => false

/-- Whether a terminal begins a sentence without shorthand, given the nullable non-terminals and
those that the terminal is known to begin. -/
def Sentence.begins (nullable begun : List Name) (t : Terminal) : Sentence → Bool
  | [] => false
  | .terminal s :: _ => s = t
  | .nonTerminal name :: rest =>
    name ∈ begun || (name ∈ nullable && begins nullable begun t rest)
  | _ :: rest => begins nullable begun t rest

/-- What is known about the beginnings of derived sentences: the nullable non-terminals, and for
each terminal the non-terminals that it begins. -/
structure Beginnings where
  nullable : List Name
  first : List (Terminal × List Name)

namespace Beginnings

/-- The terminals that begin what a non-terminal derives. -/
def ofName (b : Beginnings) (name : Name) : List Terminal :=
  (b.first.filter (name ∈ ·.2)).map Prod.fst

def begunBy (b : Beginnings) (t : Terminal) : List Name := (b.first.lookup t).getD []

/-- The terminals that begin what a sentence without shorthand derives. -/
def ofSentence (b : Beginnings) : Sentence → List Terminal
  | .terminal t :: _ => [t]
  | .epsilon :: rest => ofSentence b rest
  | .nonTerminal name :: rest =>
    b.ofName name ++ if name ∈ b.nullable then ofSentence b rest else []
  | _ => []

/-- Whether shorthand or a bar stands where a terminal could be that begins a sequence. -/
def meetsShorthand (b : Beginnings) : List Item → Bool
  | [] | .symbol (.terminal _) :: _ => false
  | .symbol .epsilon :: rest => meetsShorthand b rest
  | .symbol (.nonTerminal name) :: rest => name ∈ b.nullable && meetsShorthand b rest
  | _ => true

/-- The FIRST set of a body, under the name of its head. -/
def firstSet (b : Beginnings) (head : Name) (body : Sentence) : FirstSet :=
  .of head (b.ofSentence body) (body.vanishes b.nullable)

end Beginnings

namespace Grammar

def nullable (g : Grammar) : List Name :=
  saturate (fun known head => (g.rulesOf head).any (·.body.vanishes known)) g.heads []

def begunBy (g : Grammar) (nullable : List Name) (t : Terminal) : List Name :=
  saturate (fun known head => (g.rulesOf head).any (·.body.begins nullable known t)) g.heads []

/-- What begins the sentences that the non-terminals of a grammar derive. -/
def beginnings (g : Grammar) : Except Misuse Beginnings := do
  g.requirePlain
  let nullable := g.nullable
  return ⟨nullable, g.terminals.map fun t => (t, g.begunBy nullable t)⟩

def firstSets (g : Grammar) : Except Misuse (List FirstSet) := do
  let b ← g.beginnings
  return g.heads.map fun head => .of head (b.ofName head) (head ∈ b.nullable)

/-- The terminals that begin what a sequence derives, in order and each once, and whether it
derives the empty word. -/
def firstOf (g : Grammar) (items : List Item) : Except Failure (List Terminal × Bool) := do
  let b ← g.beginnings.mapError .misuse
  if b.meetsShorthand items then throw (.fault .unexpandedShorthand)
  let sentence : Sentence := items.filterMap Item.symbol?
  return (Terminal.listing (b.ofSentence sentence), sentence.vanishes b.nullable)

/-- The alternatives of a head that begin like another one, or derive the empty word as another
one does. -/
def clashing (b : Beginnings) (rules : List Rule) : List Rule :=
  (rules.zipIdx.filter fun entry =>
    (rules.eraseIdx entry.2).any fun other =>
      (b.firstSet entry.1.head entry.1.body).overlaps (b.firstSet other.head other.body)).map
    Prod.fst

/-- For each head with alternatives that clash, the grammar of just these. -/
def firstSetConflicts (g : Grammar) : Except Misuse (List Grammar) := do
  let b ← g.beginnings
  return (g.groups.map (fun group => clashing b group.2)).filterMap fun rules =>
    if rules = [] then none else some (g.subset rules)

end Grammar

end Ebnf
