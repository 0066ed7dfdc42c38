import Ebnf.Document.Order
import Ebnf.Editing.Basic
import Ebnf.Failure
import Ebnf.Log

/-! Settings: a table of values by name, over defaults for the limits that passes obey. Only the
names that have a default are read from a document, and these must be counts. -/
namespace Ebnf

/-- Values by name, in order; no name occurs twice. -/
structure Settings where
  entries : List (String × Document)

namespace Settings

/-- The setting for how often a loop goes round at most. -/
def iterationsKey : String := "max_iterations"

/-- The setting for how many times its size a grammar may grow to. -/
def growthKey : String := "max_growth"

/-- The settings that hold without a document. -/
def defaults : Settings := ⟨[(iterationsKey, .int 1000), (growthKey, .int 10)]⟩

def known : List String := defaults.entries.map Prod.fst

def get? (s : Settings) (key : String) : Option Document :=
  (s.entries.find? (·.1 = key)).map Prod.snd

/-- Sets the value under a name, which keeps its place if it is there. -/
def setEntry (key : String) (value : Document) :
    List (String × Document) → List (String × Document)
  | [] => [(key, value)]
  | entry :: rest =>
    if entry.1 = key then (key, value) :: rest else entry :: setEntry key value rest

/-- Sets a value, without a check. -/
def set (s : Settings) (key : String) (value : Document) : Settings :=
  ⟨setEntry key value s.entries⟩

/-- The defaults with some values set. -/
def ofEntries (entries : List (String × Document)) : Settings :=
  entries.foldl (fun s entry => s.set entry.1 entry.2) defaults

/-- Whether a value is a count: a whole number above zero. -/
def isCount : Document → Bool
  | .int n => 0 < n
  | _ => false

/-- Refuses settings under whose known names anything but a count stands. -/
def check (s : Settings) : Except SettingsProblem Unit :=
  known.forM fun key =>
    let value := (s.get? key).getD .null
    if isCount value then .ok () else .error (.notPositive key value)

/-- Takes over an entry of a document, if its name is known. -/
def take (s : Settings) (entry : Key × Document) : Settings :=
  match entry.1 with
  | .text key => if key ∈ known then s.set key entry.2 else s
  | _ => s

def isKnown : Key → Bool
  | .text key => key ∈ known
  | _ => false

/-- What reading a document came to: the settings it leaves, the warnings, and whether it was
accepted. -/
structure Reading where
  settings : Settings
  warnings : List Log.Line
  outcome : Except SettingsProblem Unit

def unknownWarning (key : Key) : Log.Line :=
  ⟨.warning, .settings, s!"Unknown setting '{key.shown}' ignored"⟩

/-- Reads a document over the settings at hand. An empty one changes nothing. The values of a
table are taken over before they are checked. -/
def read (s : Settings) : Source → Reading
  | .unreadable problem => ⟨s, [], .error (.unreadable problem)⟩
  | .document .null => ⟨s, [], .ok ()⟩
  | .document (.table entries) =>
    let taken := entries.foldl take s
    ⟨taken, ((entries.map Prod.fst).filter (!isKnown ·)).map unknownWarning, taken.check⟩
  | .document _ => ⟨s, [], .error .notTable⟩

def toDocument (s : Settings) : Document :=
  (Document.table (s.entries.map fun entry => (.text entry.1, entry.2))).arranged

def limits (s : Settings) : Limits :=
  ⟨(s.get? iterationsKey).getD .null, (s.get? growthKey).getD .null⟩

end Settings

end Ebnf
