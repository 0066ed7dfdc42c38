import Ebnf.Grammar.Reader

/-! Writing a grammar as a document that can be read again. The rules of one head are put
together, and all kinds of terminals without a literal are listed. -/
namespace Ebnf

mutual

/-- A symbol as an item of a body. Documents have no form for an alternative with a bar in one
of its branches. -/
def Symbol.document : Symbol → Except Fault Document
  | .terminal t => .ok (.text t.text)
  | .nonTerminal name => .ok (.text name.text)
  | .epsilon => .ok (.text emptyWordSign)
  | .bracket kind lead rest => do
    let first ← lead.document
    return .table [(.text kind.key, .list (first :: (← Symbol.documents rest)))]
  | .alternative first others => do
    let branch ← Item.documents first
    let branches ← Item.branchDocuments others
    return .table [(.text alternativeKey, .list (.list branch :: branches))]

def Symbol.documents : List Symbol → Except Fault (List Document)
  | [] => .ok []
  | s :: rest => do
    let first ← s.document
    return first :: (← Symbol.documents rest)

def Item.documents : List Item → Except Fault (List Document)
  | [] => .ok []
  | .bar :: _ => .error .barInBranch
  | .symbol s :: rest => do
    let first ← s.document
    return first :: (← Item.documents rest)

def Item.branchDocuments : List (List Item) → Except Fault (List Document)
  | [] => .ok []
  | branch :: rest => do
    let first ← Item.documents branch
    return .list first :: (← Item.branchDocuments rest)

end

mutual

/-- The kinds of terminals without a literal in a symbol, at any depth. -/
def Symbol.terminalKinds : Symbol → List String
  | .terminal t => if t.literalText?.isSome then [] else [t.token]
  | .nonTerminal _ | .epsilon => []
  | .bracket _ lead rest => lead.terminalKinds ++ Symbol.terminalKindsIn rest
  | .alternative first others => Item.terminalKindsIn first ++ Item.terminalKindsInAll others

def Symbol.terminalKindsIn : List Symbol → List String
  | [] => []
  | s :: rest => s.terminalKinds ++ Symbol.terminalKindsIn rest

def Item.terminalKindsIn : List Item → List String
  | [] => []
  | .bar :: rest => Item.terminalKindsIn rest
  | .symbol s :: rest => s.terminalKinds ++ Item.terminalKindsIn rest

def Item.terminalKindsInAll : List (List Item) → List String
  | [] => []
  | branch :: rest => Item.terminalKindsIn branch ++ Item.terminalKindsInAll rest

end

namespace Grammar

/-- The kinds of terminals without a literal, in order of appearance. -/
def terminalKinds (g : Grammar) : List String :=
  (g.rules.flatMap (fun rule => Symbol.terminalKindsIn rule.body)).eraseDups

def entryOf (group : Name × List Rule) : Except Fault (Key × Document) := do
  let bodies ← group.2.mapM (fun rule => Symbol.documents rule.body)
  return (.text group.1.text, .list (bodies.map .list))

def toDocument (g : Grammar) : Except Fault Document := do
  let entries ← g.groups.mapM entryOf
  let start := g.start.toList.map fun name => (Key.text "start", Document.text name.text)
  return .table (start ++
    [(.text "terminals", .list (g.terminalKinds.map .text)), (.text "productions", .table entries)])

end Grammar

end Ebnf
