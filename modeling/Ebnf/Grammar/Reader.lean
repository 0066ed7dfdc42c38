import Ebnf.Grammar.Basic
import Ebnf.Failure
import Ebnf.Symbol.Shorthand
import Ebnf.Text.Basic

/-! Reading a grammar from a document: a table of heads with their bodies, and optionally the
kinds of terminals and the start symbol. A body is a list of items, or a text with blanks between
them. An item is a name, a literal in quotes, the sign for the empty word, a bar, or a table with
one key for shorthand. -/
namespace Ebnf

/-- The words that decide what a name in a body is: the heads of the rules, and the kinds of
terminals if the document lists them. -/
structure Vocabulary where
  heads : List String
  terminals : Option (List String)

def Bracket.key : Bracket → String
  | .group => "group"
  | .option => "option"
  | .repetition => "repeat"

/-- The key of an alternative in a document. -/
def alternativeKey : String := "alt"

def Bracket.ofKey? : Key → Option Bracket
  | .text key => [Bracket.group, .option, .repetition].find? (·.key = key)
  | _ => none

/-- The text between quotes, if there are any: the same quote at both ends, single or double. -/
def unquote? (text : String) : Option String :=
  match text.toList with
  | first :: rest =>
    if (first = '\x27' ∨ first = '\x22') ∧ rest.getLast? = some first then
      some (String.ofList rest.dropLast)
    else none
  | [] => none

namespace Vocabulary

/-- The item that a word stands for. A name is a terminal if its kind is listed or, without a
list, if it heads no rule. -/
def word (v : Vocabulary) (text : String) : Except Failure Item :=
  if text = "|" then .ok .bar
  else if text = emptyWordSign then .ok (.symbol .epsilon)
  else match unquote? text with
    | some literal =>
      if literal = "" then .error (.format .emptyLiteral)
      else .ok (.symbol (.terminal ⟨literal, some literal⟩))
    | none =>
      if isTerminal then .ok (.symbol (.terminal ⟨text, none⟩))
      else match Name.ofText text with
        | .ok name => .ok (.symbol (.nonTerminal name))
        | .error m => .error (.misuse m)
where
  isTerminal : Bool :=
    match v.terminals with
    | some terminals => text ∈ terminals
    | none => text ∉ v.heads

mutual

def item (v : Vocabulary) : Document → Except Failure Item
  | .text s => v.word s
  | .table entries => do return .symbol (← v.shorthand entries)
  | d => .error (.format (.notSymbol d))

def shorthand (v : Vocabulary) : List (Key × Document) → Except Failure Symbol
  | [(key, value)] =>
    if key = .text alternativeKey then do
      let branches ← v.alternatives value
      (Symbol.choose branches).mapError .misuse
    else
      match Bracket.ofKey? key with
      | some kind => do
        let items ← v.body value
        (Symbol.enclose kind items).mapError .misuse
      | none => .error (.format (.unknownShorthand key))
  | entries => .error (.format (.notOneKey (.table entries)))

def alternatives (v : Vocabulary) : Document → Except Failure (List (List Item))
  | .list (first :: others) => v.bodies (first :: others)
  | d => .error (.format (.notAlternatives d))

def body (v : Vocabulary) : Document → Except Failure (List Item)
  | .null => .ok []
  | .text s => (Text.words s).mapM v.word
  | .list documents => v.items documents
  | d => .error (.format (.notBody d))

def items (v : Vocabulary) : List Document → Except Failure (List Item)
  | [] => .ok []
  | d :: rest => do
    let first ← v.item d
    return first :: (← v.items rest)

def bodies (v : Vocabulary) : List Document → Except Failure (List (List Item))
  | [] => .ok []
  | d :: rest => do
    let first ← v.body d
    return first :: (← v.bodies rest)

end

def rule (v : Vocabulary) (head : Key) (d : Document) : Except Failure Rule := do
  let name ← (Name.ofText head.shown).mapError .misuse
  let items ← v.body d
  return .ofItems name items

/-- The rules of an entry of the table: one for each body of a list, or one for a single body. -/
def rules (v : Vocabulary) (entry : Key × Document) : Except Failure (List Rule) :=
  match entry.2 with
  | .list bodies => bodies.mapM (v.rule entry.1)
  | single => [single].mapM (v.rule entry.1)

end Vocabulary

namespace Document

/-- The value of an entry of a table that need not be there, a null one counting as none. -/
def optional? (d : Document) (key : String) : Option Document :=
  match d.entries?.bind (get? · key) with
  | some .null => none
  | found => found

def ruleTable (d : Document) : Except FormatProblem (List (Key × Document)) :=
  match d.entries?.bind (get? · "productions") with
  | none => .error .noProductions
  | some (.table entries) => .ok entries
  | some _ => .error .productionsNotTable

def terminalList? (d : Document) : Except FormatProblem (Option (List String)) :=
  match d.optional? "terminals" with
  | none => .ok none
  | some (.list items) =>
    match items.mapM text? with
    | some kinds => .ok (some kinds)
    | none => .error .terminalsNotTexts
  | some _ => .error .terminalsNotTexts

def startText? (d : Document) : Except FormatProblem (Option String) :=
  match d.optional? "start" with
  | none => .ok none
  | some (.text s) => .ok (some s)
  | some other => .error (.startNotName other)

end Document

namespace Grammar

def ofDocument (d : Document) : Except Failure Grammar := do
  let entries ← d.ruleTable.mapError .format
  let terminals ← d.terminalList?.mapError .format
  let start ← d.startText?.mapError .format
  let vocabulary : Vocabulary := ⟨entries.map (·.1.shown), terminals⟩
  let rules ← entries.mapM vocabulary.rules
  let start ← (start.mapM Name.ofText).mapError .misuse
  let g := ofRules rules.flatten start
  if g.rules ≠ [] then
    let _ ← g.requireStart.mapError .misuse
  return g

def ofSource : Source → Except Failure Grammar
  | .document d => ofDocument d
  | .unreadable problem => .error (.format (.unreadable problem))

end Grammar

end Ebnf
