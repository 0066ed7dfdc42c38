import Ebnf.Document.Basic

/-! What documents and keys come to as numbers. A truth value counts as one or zero. -/
namespace Ebnf

def Number.ofBool (b : Bool) : Number := .whole (if b then 1 else 0)

def Key.number? : Key → Option Number
  | .bool b => some (.ofBool b)
  | .int n => some (.whole n)
  | .floating x => some (.floating x)
  | .null | .text _ => none

namespace Document

def number? : Document → Option Number
  | .bool b => some (.ofBool b)
  | .int n => some (.whole n)
  | .floating x => some (.floating x)
  | .null | .text _ | .list _ | .table _ => none

def ofNumber : Number → Document
  | .whole n => .int n
  | .floating x => .floating x

/-- The whole number that a document is, if it is one. -/
def whole? (d : Document) : Option Int :=
  match d.number? with
  | some (.whole n) => some n
  | _ => none

/-- A document a number of times, at least once. Numbers are multiplied, and texts and lists are
repeated. -/
def times? (d : Document) (count : Nat) : Option Document :=
  match d with
  | .text s => some (.text (String.join (List.replicate count s)))
  | .list items => some (.list (List.replicate count items).flatten)
  | other => other.number?.map fun n => ofNumber (n.times count)

/-- Whether a count goes beyond a limit, if the limit is a number. -/
def exceededBy? (limit : Document) (count : Nat) : Option Bool :=
  limit.number?.map fun n => n.isLess (.whole count)

end Document

end Ebnf
