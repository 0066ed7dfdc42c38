/-! Names of non-terminals. The empty text and the sign for the empty word name nothing,
so a name carries the proof that it is neither. Appending prime marks to a name gives new
names, and `freshPrime` takes the first of them that is not in use. -/
namespace Ebnf

/-- The sign for the empty word wherever a grammar is written down. -/
def emptyWordSign : String := "ε"

/-- A text that can name a non-terminal. -/
def Name.Valid (text : String) : Prop := text ≠ "" ∧ text ≠ emptyWordSign

instance (text : String) : Decidable (Name.Valid text) :=
  inferInstanceAs (Decidable (_ ∧ _))

/-- The name of a non-terminal; rules are looked up by it. -/
structure Name where
  text : String
  valid : Name.Valid text
  deriving DecidableEq

namespace Name

def ofText? (text : String) : Option Name :=
  if h : Valid text then some ⟨text, h⟩ else none

/-- The mark that is appended to a name to make another. -/
def primeMark : String := "′"

theorem valid_append_primeMark (text : String) : Valid (text ++ primeMark) := by
  constructor
  · intro h
    have hl := congrArg String.toList h
    simp [primeMark] at hl
  · intro h
    have hl := congrArg (fun s => s.toList.getLast?) h
    simp [primeMark, emptyWordSign] at hl

/-- The name with one more prime mark. -/
def prime (name : Name) : Name := ⟨name.text ++ primeMark, valid_append_primeMark name.text⟩

/-- The first of `name′`, `name′′`, … that is not among the names taken. A name once tried
cannot come up again, so it is struck off the list before the search goes on. -/
def freshPrime (name : Name) (taken : List Name) : Name :=
  if name.prime ∈ taken then name.prime.freshPrime (taken.erase name.prime) else name.prime
  termination_by taken.length
  decreasing_by
    have := List.length_erase_of_mem ‹_›
    have := List.length_pos_of_mem ‹_›
    omega

end Name

end Ebnf
