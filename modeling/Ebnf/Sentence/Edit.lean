import Ebnf.Index
import Ebnf.Misuse

/-! Edits of a sentence by position. Each is the list operation of that name, after which bars
among the inserted items are folded. A position must lie in the sentence; only a slice takes any
position, counting negative ones from the end. -/
namespace Ebnf

/-- How many places apart the symbols of a slice stand. Below zero, they come from right to left. -/
structure Stride where
  places : Int
  nonzero : places ≠ 0 := by decide

namespace Sentence

/-- Checks a position against the first that is no longer allowed. -/
def position (s : Sentence) (index : Int) (limit : Nat) : Except Misuse Nat :=
  if 0 ≤ index ∧ index < limit then .ok index.toNat else .error (.outOfRange index s)

def add (s : Sentence) (items : List Item) : Sentence := ofItems (Item.ofSymbols s ++ items)

/-- Puts items before the symbol at a position, or at the end. -/
def insertAt (s : Sentence) (index : Int) (items : List Item) : Except Misuse Sentence := do
  let i ← s.position index (s.length + 1)
  return ofItems (Item.ofSymbols (s.take i) ++ items ++ Item.ofSymbols (s.drop i))

def removeAt (s : Sentence) (index : Int) : Except Misuse Sentence := do
  let i ← s.position index s.length
  return s.take i ++ s.drop (i + 1)

/-- Puts items in the place of the symbol at a position. -/
def replaceAt (s : Sentence) (index : Int) (items : List Item) : Except Misuse Sentence := do
  let i ← s.position index s.length
  return ofItems (Item.ofSymbols (s.take i) ++ items ++ Item.ofSymbols (s.drop (i + 1)))

/-- The end of a slice: negative ends count from the end of the sentence, and one beyond either
end is moved there. -/
def sliceEnd (s : Sentence) (index : Int) : Nat :=
  if index < 0 then (index + s.length).toNat else min index.toNat s.length

/-- The symbols from one end up to another; an end that is left out is that of the sentence. -/
def between (s : Sentence) (first last : Option Int) : Sentence :=
  (s.take (last.elim s.length s.sliceEnd)).drop (first.elim 0 s.sliceEnd)

/-- The symbols from one end up to another, a stride apart. From right to left, the sentence is
turned around and each end is counted from the other side. -/
def slice (s : Sentence) (first last : Option Int) (stride : Stride := ⟨1, by decide⟩) : Sentence :=
  if 0 < stride.places then everyNth stride.places.toNat 0 (s.between first last)
  else everyNth (-stride.places).toNat 0
    (between s.reverse (first.map (-1 - ·)) (last.map (-1 - ·)))

/-- Where the occurrence at an index is first met. Each occurrence is told apart from equal ones,
but ε is one and the same wherever it stands. -/
def occurrence? (s : Sentence) (index : Int) : Option Nat := do
  let i ← place? index s.length
  if s[i]? = some .epsilon then s.findIdx? (· = .epsilon) else some i

/-- Where a symbol made apart from the sentence is met in it: nowhere, unless it is ε. -/
def foreignOccurrence? (s : Sentence) (item : Item) : Option Nat :=
  if item = .symbol .epsilon then s.findIdx? (· = .epsilon) else none

end Sentence

end Ebnf
