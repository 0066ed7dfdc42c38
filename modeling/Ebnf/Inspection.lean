import Ebnf.Diagnostic
import Ebnf.Record

/-! Descriptions for a reader who wants to know what kind of thing is before him: the kind, and
in brackets the text. -/
namespace Ebnf

def Symbol.description (s : Symbol) : String :=
  match s with
  | .terminal _ => s!"Terminal({s.text})"
  | .nonTerminal _ => s!"NonTerminal({s.text})"
  | .epsilon => "EPSILON"
  | .bracket kind _ _ => s!"{kind.title}({s.text})"
  | .alternative _ _ => s!"Alternative({s.text})"

def Item.description : Item → String
  | .symbol s => s.description
  | .bar => "PIPE"

def Sentence.description (s : Sentence) : String := s!"Sentence({s.text})"

def Rule.description (r : Rule) : String := s!"ProductionRule({r.text})"

def Grammar.description (g : Grammar) : String :=
  let start := (g.start.map Name.text).getD "None"
  s!"ProductionSet(start={start}, {g.rules.length} productions)"

def Record.description (r : Record) : String := s!"TransformationRecord({r.text})"

def Derivation.description (d : Derivation) : String := s!"Derivation({d.text})"

def Cycle.description (c : Cycle) : String :=
  let heads := (c.rules.map (·.head.text)) ++ [c.root.text]
  "LeftRecursionCycle(" ++ " => ".intercalate heads ++ ")"

def Diagnostic.description (d : Diagnostic) : String :=
  "Diagnostic(" ++ Text.quoted d.title ++ ")"

end Ebnf
