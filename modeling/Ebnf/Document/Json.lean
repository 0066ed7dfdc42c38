import Ebnf.Document.Text

/-! Documents in JSON notation. Reading goes over the characters once to find the tokens, and over
the tokens once with a stack of the lists and tables that are still open. A number with a point
or a power of ten is a floating point number, and any other is a whole number. The infinities and
the undefined number are written as words. -/
namespace Ebnf.Json

/-- The parts that a text is made of. -/
inductive Token where
  | openList
  | closeList
  | openTable
  | closeTable
  | comma
  | colon
  | text (s : String)
  | word (cs : List Char)

/-- Where the search for tokens stands: between two, in a word, or in a quoted text, of which the
code units are kept with the last first. A backslash in a text is followed by a letter, or by four
hexadecimal digits. -/
inductive Place where
  | between
  | word (reversed : List Char)
  | quoted (reversed : List Nat)
  | escaped (reversed : List Nat)
  | coded (reversed : List Nat) (missing value : Nat)

/-- The tokens found so far, with the last first, and where the search stands. -/
structure Scan where
  tokens : List Token
  place : Place

/-- Joins pairs of surrogates; one that stands alone becomes the replacement character. -/
def charsOfUnits : List Nat → List Char
  | high :: low :: rest =>
    if 0xd800 ≤ high ∧ high < 0xdc00 ∧ 0xdc00 ≤ low ∧ low < 0xe000 then
      Char.ofNat (0x10000 + (high - 0xd800) * 0x400 + (low - 0xdc00)) :: charsOfUnits rest
    else single high :: charsOfUnits (low :: rest)
  | [unit] => [single unit]
  | [] => []
where
  /-- The character of a unit. -/
  single (unit : Nat) : Char :=
    if unit < 0x110000 ∧ ¬(0xd800 ≤ unit ∧ unit < 0xe000) then Char.ofNat unit else '\ufffd'

/-- The sign that a character is by itself. -/
def sign? : Char → Option Token
  | '[' => some .openList
  | ']' => some .closeList
  | '\x7b' => some .openTable
  | '\x7d' => some .closeTable
  | ',' => some .comma
  | ':' => some .colon
  | _ => none

def escape? : Char → Option Char
  | 'n' => some '\n'
  | 'r' => some '\r'
  | 't' => some '\t'
  | 'b' => some '\x08'
  | 'f' => some '\x0c'
  | '/' => some '/'
  | '\\' => some '\\'
  | '\x22' => some '\x22'
  | _ => none

def hexDigit? (c : Char) : Option Nat :=
  if c.isDigit then some (c.toNat - '0'.toNat)
  else if 'a' ≤ c ∧ c ≤ 'f' then some (c.toNat - 'a'.toNat + 10)
  else if 'A' ≤ c ∧ c ≤ 'F' then some (c.toNat - 'A'.toNat + 10)
  else none

/-- Takes in a character that stands outside all quoted text, behind the given tokens. -/
def Scan.outside (tokens : List Token) (word : List Char) (c : Char) : Scan :=
  let ended := if word = [] then tokens else .word word.reverse :: tokens
  match sign? c with
  | some token => ⟨token :: ended, .between⟩
  | none =>
    if c = ' ' ∨ c = '\n' ∨ c = '\r' ∨ c = '\t' then ⟨ended, .between⟩
    else if c = '\x22' then ⟨ended, .quoted []⟩
    else ⟨tokens, .word (c :: word)⟩

/-- Takes in a character. -/
def Scan.step (s : Scan) (c : Char) : Option Scan :=
  match s.place with
  | .between => some (.outside s.tokens [] c)
  | .word reversed => some (.outside s.tokens reversed c)
  | .quoted reversed =>
    if c = '\x22' then
      some ⟨.text (String.ofList (charsOfUnits reversed.reverse)) :: s.tokens, .between⟩
    else if c = '\\' then some ⟨s.tokens, .escaped reversed⟩
    else some ⟨s.tokens, .quoted (c.toNat :: reversed)⟩
  | .escaped reversed =>
    if c = 'u' then some ⟨s.tokens, .coded reversed 4 0⟩
    else (escape? c).map fun plain => ⟨s.tokens, .quoted (plain.toNat :: reversed)⟩
  | .coded reversed missing value => do
    let digit ← hexDigit? c
    let value := value * 16 + digit
    return if missing ≤ 1 then ⟨s.tokens, .quoted (value :: reversed)⟩
      else ⟨s.tokens, .coded reversed (missing - 1) value⟩

def tokens? (text : String) : Option (List Token) := do
  let found ← text.toList.foldlM Scan.step ⟨[], .between⟩
  match found.place with
  | .between => some found.tokens.reverse
  | .word reversed => some (.word reversed.reverse :: found.tokens).reverse
  | _ => none

def natOf (digits : List Char) : Nat :=
  digits.foldl (fun n c => n * 10 + (c.toNat - '0'.toNat)) 0

/-- Reads the power of ten at the end of a number. -/
def power? : List Char → Option Int
  | [] => some 0
  | e :: rest =>
    if e = 'e' ∨ e = 'E' then
      match rest with
      | '-' :: digits => (natOf? digits).map (-·)
      | '+' :: digits => natOf? digits
      | digits => natOf? digits
    else none
where
  natOf? (digits : List Char) : Option Int :=
    if digits ≠ [] ∧ digits.all Char.isDigit then some (natOf digits) else none

def number? (negative : Bool) (cs : List Char) : Option Document :=
  let whole := cs.takeWhile Char.isDigit
  if whole = [] then none
  else match cs.dropWhile Char.isDigit with
    | [] => some (.int (if negative then -(natOf whole : Int) else natOf whole))
    | '.' :: behind =>
      let places := behind.takeWhile Char.isDigit
      if places = [] then none
      else (power? (behind.dropWhile Char.isDigit)).map fun power =>
        .floating (.ofDecimal ⟨negative, natOf (whole ++ places), power - places.length⟩)
    | rest =>
      (power? rest).map fun power => .floating (.ofDecimal ⟨negative, natOf whole, power⟩)

def word? (cs : List Char) : Option Document :=
  if cs = "null".toList then some .null
  else if cs = "true".toList then some (.bool true)
  else if cs = "false".toList then some (.bool false)
  else if cs = "NaN".toList then some (.floating .undefined)
  else if cs = "Infinity".toList then some (.floating (.infinite false))
  else if cs = "-Infinity".toList then some (.floating (.infinite true))
  else match cs with
    | '-' :: rest => number? true rest
    | _ => number? false cs

/-- A list or table that is still open, with its last item first. -/
inductive Opened where
  | list (reversed : List Document)
  | table (reversed : List (Key × Document)) (key : String)

/-- What may come next: a value, the end of an empty list or table, a key, a colon, or what
follows a value. -/
inductive Expected where
  | value
  | valueOrEnd
  | keyOrEnd
  | key
  | colon
  | more
  | nothing

/-- How far a document is built. -/
structure Building where
  opened : List Opened
  expected : Expected
  complete : Option Document

/-- Puts a value where it belongs: into what was opened last, or as the whole document. -/
def Building.put (opened : List Opened) (d : Document) : Building :=
  match opened with
  | [] => ⟨[], .nothing, some d⟩
  | .list reversed :: outer => ⟨.list (d :: reversed) :: outer, .more, none⟩
  | .table reversed key :: outer =>
    ⟨.table ((.text key, d) :: reversed) key :: outer, .more, none⟩

def Building.step (b : Building) (t : Token) : Option Building :=
  match b.expected, t, b.opened with
  | .value, .text s, _ | .valueOrEnd, .text s, _ => some (put b.opened (.text s))
  | .value, .word cs, _ | .valueOrEnd, .word cs, _ => (word? cs).map (put b.opened)
  | .value, .openList, _ | .valueOrEnd, .openList, _ =>
    some ⟨.list [] :: b.opened, .valueOrEnd, none⟩
  | .value, .openTable, _ | .valueOrEnd, .openTable, _ =>
    some ⟨.table [] "" :: b.opened, .keyOrEnd, none⟩
  | .valueOrEnd, .closeList, .list reversed :: outer | .more, .closeList, .list reversed :: outer =>
    some (put outer (.list reversed.reverse))
  | .keyOrEnd, .closeTable, .table reversed _ :: outer
  | .more, .closeTable, .table reversed _ :: outer =>
    some (put outer (.table reversed.reverse))
  | .keyOrEnd, .text s, .table reversed _ :: outer | .key, .text s, .table reversed _ :: outer =>
    some ⟨.table reversed s :: outer, .colon, none⟩
  | .colon, .colon, _ => some ⟨b.opened, .value, none⟩
  | .more, .comma, .list _ :: _ => some ⟨b.opened, .value, none⟩
  | .more, .comma, .table _ _ :: _ => some ⟨b.opened, .key, none⟩
  | _, _, _ => none

def read? (text : String) : Option Document := do
  let tokens ← tokens? text
  let built ← tokens.foldlM Building.step ⟨[], .value, none⟩
  built.complete

def number : Floating → String
  | .infinite negative => if negative then "-Infinity" else "Infinity"
  | .undefined => "NaN"
  | finite => finite.text

def escape (c : Char) : List Char :=
  if c = '\x22' ∨ c = '\\' then ['\\', c]
  else if c = '\n' then ['\\', 'n']
  else if c.toNat < 0x20 then '\\' :: 'u' :: Text.hexadecimal 4 c.toNat
  else [c]

def quoted (s : String) : String :=
  String.ofList ('\x22' :: s.toList.flatMap escape ++ ['\x22'])

mutual

/-- Writes a document. Keys that are no texts are written as the texts they are shown as. -/
def write : Document → String
  | .null => "null"
  | .bool b => if b then "true" else "false"
  | .int n => toString n
  | .floating x => number x
  | .text s => quoted s
  | .list items => "[" ++ ",".intercalate (writeItems items) ++ "]"
  | .table entries => "\x7b" ++ ",".intercalate (writeEntries entries) ++ "\x7d"

def writeItems : List Document → List String
  | [] => []
  | d :: rest => write d :: writeItems rest

def writeEntries : List (Key × Document) → List String
  | [] => []
  | (key, d) :: rest => (quoted key.shown ++ ":" ++ write d) :: writeEntries rest

end

end Ebnf.Json
