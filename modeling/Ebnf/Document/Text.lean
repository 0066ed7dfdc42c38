import Ebnf.Document.Basic
import Ebnf.Floating.Decimal
import Ebnf.Text.Basic

/-! How documents are shown in messages: a text on its own stands bare, and inside a list or a
table in quotes. -/
namespace Ebnf

/-- The text of a key, in quotes if it is a text. -/
def Key.quoted : Key → String
  | .null => "None"
  | .bool true => "True"
  | .bool false => "False"
  | .int n => toString n
  | .floating x => x.text
  | .text s => Text.quoted s

def Key.shown : Key → String
  | .text s => s
  | key => key.quoted

mutual

/-- The text of a document, with every text in quotes. -/
def Document.quoted : Document → String
  | .null => Key.null.quoted
  | .bool b => (Key.bool b).quoted
  | .int n => (Key.int n).quoted
  | .floating x => (Key.floating x).quoted
  | .text s => (Key.text s).quoted
  | .list items => "[" ++ ", ".intercalate (Document.quotedItems items) ++ "]"
  | .table entries => "\x7b" ++ ", ".intercalate (Document.quotedEntries entries) ++ "\x7d"

def Document.quotedItems : List Document → List String
  | [] => []
  | d :: rest => d.quoted :: Document.quotedItems rest

def Document.quotedEntries : List (Key × Document) → List String
  | [] => []
  | (key, d) :: rest =>
    (key.quoted ++ ": " ++ d.quoted) :: Document.quotedEntries rest

end

/-- The text of a document. -/
def Document.shown : Document → String
  | .text s => s
  | d => d.quoted

end Ebnf
