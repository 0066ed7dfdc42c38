import Ebnf.Document.Number

/-! Documents with their tables in order: entries whose keys can all be compared stand sorted by
them, numbers by value and texts by their characters, and any others stay as they are. -/
namespace Ebnf

def Key.isText : Key → Bool
  | .text _ => true
  | _ => false

/-- Whether a key may stand before another, among keys that can be compared. -/
def Key.isAtMost : Key → Key → Bool
  | .text s, .text t => s ≤ t
  | key, key' =>
    match key.number?, key'.number? with
    | some n, some n' => !n'.isLess n
    | _, _ => true

namespace Document

/-- Sorts entries by their keys, if these are all texts or all numbers. -/
def arrange (entries : List (Key × Document)) : List (Key × Document) :=
  let keys := entries.map Prod.fst
  if keys.all Key.isText || keys.all (·.number?.isSome) then
    entries.mergeSort fun entry entry' => entry.1.isAtMost entry'.1
  else entries

mutual

/-- A document with all its tables in order. -/
def arranged : Document → Document
  | .list items => .list (arrangedItems items)
  | .table entries => .table (arrange (arrangedEntries entries))
  | other => other

def arrangedItems : List Document → List Document
  | [] => []
  | d :: rest => d.arranged :: arrangedItems rest

def arrangedEntries : List (Key × Document) → List (Key × Document)
  | [] => []
  | (key, d) :: rest => (key, d.arranged) :: arrangedEntries rest

end

end Document

end Ebnf
