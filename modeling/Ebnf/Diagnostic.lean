import Ebnf.Cycle
import Ebnf.Grammar.Basic
import Ebnf.Text.Basic

/-! Diagnostics: problems of a grammar, as text under labels and with the rules or cycles that
show the problem. They are ordinary results; a caller decides whether to stop. -/
namespace Ebnf

/-- What shows a problem: rules of a grammar, left recursion cycles, or for each head the
alternatives that clash. -/
inductive Evidence where
  | productions (g : Grammar)
  | cycles (cs : List Cycle)
  | conflicts (gs : List Grammar)
  deriving DecidableEq

/-- One problem of a grammar. No two details have the same label. -/
structure Diagnostic where
  title : String
  details : List (String × String)
  evidence : Option Evidence
  deriving DecidableEq

namespace Diagnostic

/-- Sets the text under a label, which keeps its place if it is there. -/
def setDetail (label text : String) : List (String × String) → List (String × String)
  | [] => [(label, text)]
  | entry :: rest =>
    if entry.1 = label then (label, text) :: rest else entry :: setDetail label text rest

/-- The diagnostic with a detail more, or with a new text for one that it has. -/
def withDetail (d : Diagnostic) (label text : String) : Diagnostic :=
  { d with details := setDetail label text d.details }

/-- A diagnostic with the given details, set one after another. -/
def ofDetails (title : String) (details : List (String × String))
    (evidence : Option Evidence) : Diagnostic :=
  details.foldl (fun d entry => d.withDetail entry.1 entry.2) ⟨title, [], evidence⟩

/-- The text of a diagnostic: the title, and under each label its lines, indented. -/
def text (d : Diagnostic) : String :=
  "\n".intercalate (d.title :: d.details.flatMap detailLines)
where
  detailLines (detail : String × String) : List String :=
    s!"  {detail.1}:" :: (Text.lines detail.2).map ("    " ++ ·)

def summary (ds : List Diagnostic) : String := s!"{ds.length} grammar error(s): {titles}"
where
  titles : String := "; ".intercalate (ds.map Diagnostic.title)

end Diagnostic

end Ebnf
