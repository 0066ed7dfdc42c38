import Ebnf.Number

/-! Structured documents, as grammars and settings are stored: plain values, lists, and tables
with their entries in order. -/
namespace Ebnf

/-- What an entry of a table is found by. -/
inductive Key where
  | null
  | bool (b : Bool)
  | int (n : Int)
  | floating (x : Floating)
  | text (s : String)
  deriving DecidableEq

/-- A structured document. -/
inductive Document where
  | null
  | bool (b : Bool)
  | int (n : Int)
  | floating (x : Floating)
  | text (s : String)
  | list (items : List Document)
  | table (entries : List (Key × Document))

namespace Document

def text? : Document → Option String
  | .text s => some s
  | _ => none

def items? : Document → Option (List Document)
  | .list items => some items
  | _ => none

def entries? : Document → Option (List (Key × Document))
  | .table entries => some entries
  | _ => none

/-- The entry of a table at a key that is a text. -/
def get? (entries : List (Key × Document)) (key : String) : Option Document :=
  (entries.find? (·.1 = .text key)).map Prod.snd

end Document

/-- What is read from a file: a document, or a text that is none, with what is wrong with it. -/
inductive Source where
  | document (d : Document)
  | unreadable (problem : String)

end Ebnf
