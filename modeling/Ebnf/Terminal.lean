/-! Terminals: kinds of tokens, some of them with the literal text they stand for. An empty
literal is not the same as none, but is written in the same way. -/
namespace Ebnf

/-- A kind of token, with its literal text if it has one. -/
structure Terminal where
  token : String
  literal : Option String
  deriving DecidableEq

namespace Terminal

/-- The terminal that marks the end of the input. -/
def endOfInput : Terminal := ⟨"$", none⟩

/-- The literal of a terminal, unless it has none or an empty one. -/
def literalText? (t : Terminal) : Option String := t.literal.filter (· ≠ "")

/-- A terminal is written as its quoted literal, or else as its token. -/
def text (t : Terminal) : String :=
  match t.literalText? with
  | some literal => "'" ++ literal ++ "'"
  | none => t.token

/-- The order of terminals in a listing: by token, then those without a literal, then by
literal, texts being compared by code point. -/
def compare (s t : Terminal) : Ordering :=
  (Ord.compare s.token t.token).then <|
    match s.literal, t.literal with
    | none, none => .eq
    | none, some _ => .lt
    | some _, none => .gt
    | some a, some b => Ord.compare a b

def listing (ts : List Terminal) : List Terminal :=
  ts.foldl insert []
where
  /-- Puts a terminal in its place in an ordered list, unless it is there already. -/
  insert : List Terminal → Terminal → List Terminal
    | [], t => [t]
    | s :: rest, t =>
      if s = t then s :: rest
      else if (compare s t).isGT then t :: s :: rest
      else s :: insert rest t

end Terminal

end Ebnf
