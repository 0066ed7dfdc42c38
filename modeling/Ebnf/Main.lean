import Ebnf.CommandLine.Execution
import Ebnf.Document.Json

/-! The command line. Grammars and settings are read, and grammars written, in JSON notation. -/
namespace Ebnf

def sourceOf (text : String) : Source :=
  if text.trimAscii.isEmpty then .document .null
  else match Json.read? text with
    | some d => .document d
    | none => .unreadable "the text is not in JSON notation"

/-- The names that a command line reads from, and where its result goes; a dash is the standard
input or output. -/
def namesOf (arguments : List String) : List String × Option String :=
  match CommandLine.Request.read arguments with
  | some (.work o) => (if o.files = [] then "-" :: o.opened else o.opened, o.target)
  | some (.help o) => (o.opened, o.target)
  | none => ([], none)

/-- Whether a file can be written. It is made if need be. -/
def creates (path : String) : IO Bool := do
  try
    let _ ← IO.FS.Handle.mk path .append
    return true
  catch _ => return false

/-- Reads the sources of a command line that there are, and tries whether its result can be
written. -/
def readSurroundings (arguments : List String) : IO CommandLine.Surroundings := do
  let (sources, target) := namesOf arguments
  let mut standard := Source.document .null
  let mut files := []
  for name in sources.eraseDups do
    if name = "-" then
      standard := sourceOf (← (← IO.getStdin).readToEnd)
    else
      try files := (name, sourceOf (← IO.FS.readFile name)) :: files
      catch _ => pure ()
  let created ← target.toList.filterM creates
  return ⟨files, standard, (created.contains ·)⟩

def CommandLine.Output.written : CommandLine.Output → String
  | .text s => s
  | .document d => Json.write d ++ "\n"

/-- Writes the output of a report where it is wanted and prints what it tells. The status is that of
the report, or that of a refusal if the output cannot be written. -/
def deliver (report : CommandLine.Report) (target : Option String) : IO Nat := do
  let text := (report.output.map CommandLine.Output.written).getD ""
  try
    match target.filter (· ≠ "-") with
    | some path => IO.FS.writeFile path text
    | none => IO.print text
    for message in report.messages do
      IO.eprintln message
    return report.status
  catch _ => return CommandLine.refusalStatus

end Ebnf

def main (arguments : List String) : IO UInt32 := do
  let surroundings ← Ebnf.readSurroundings arguments
  match Ebnf.CommandLine.run surroundings arguments with
  | .ok (.done report target) =>
    return (← Ebnf.deliver report target).toUInt32
  | .ok .help => return 0
  | .ok .refused => return Ebnf.CommandLine.refusalStatus.toUInt32
  | .error _ => return 1
