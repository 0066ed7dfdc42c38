import Ebnf.CommandLine.Arguments
import Ebnf.Grammar.Writer
import Ebnf.Pass.Program
import Ebnf.Settings

/-! The command line program: it reads settings and a grammar, runs a pass, and writes the
grammar that comes out. All that it tells goes to the error stream, log lines included. -/
namespace Ebnf.CommandLine

/-- What is written when a pass succeeds. -/
inductive Output where
  | text (s : String)
  | document (d : Document)

/-- What an execution comes to: the status, the lines on the error stream, and what is written,
which is nothing unless the status is zero. -/
structure Report where
  status : Nat
  messages : List String
  output : Option Output

/-- The log lines of a run. -/
def logOf {α : Type} (r : Run α) : List Log.Line := r.events.filterMap Event.line?

def Options.threshold (o : Options) : Log.Level := if o.verbose then .debug else .info

def Options.shown (o : Options) (lines : List Log.Line) : List String :=
  (lines.filter (·.shownFrom o.threshold)).map Log.Line.text

def errorLine (message : String) : Log.Line := ⟨.error, .commandLine, message⟩

/-- What is logged about a grammar once it is read. -/
def readingLines (d : Document) (g : Grammar) : List Log.Line :=
  let heads := d.ruleTable.toOption.elim 0 List.length
  let start := (g.start.map Name.text).getD "None"
  [⟨.debug, .documents, s!"Read {g.rules.length} productions for {heads} non-terminals"⟩,
    ⟨.debug, .commandLine, s!"Read {g.rules.length} productions, start symbol {start}"⟩]

def Options.output (o : Options) (g : Grammar) : Except Fault Output :=
  if o.asEbnf then .ok (.text (g.ebnf ++ "\n")) else g.toDocument.map .document

/-- Runs the pass that is asked for. A rejected grammar is reported by its problems, any other
failure by its message; a fault is no failure of the input and is passed on. -/
def Options.runPass (o : Options) (limits : Limits) (earlier : List String) (g : Grammar) :
    Except Fault Report :=
  let run := o.pass.run limits g
  let told := earlier ++ o.shown (logOf run)
  match run.outcome with
  | .ok () => do
    let output ← o.output run.grammar
    return ⟨0, told ++ (if o.showRecords then run.records.map Record.text else []), some output⟩
  | .error (.rejection problems) => .ok ⟨1, told ++ problems.map Diagnostic.text, none⟩
  | .error (.fault fault) => .error fault
  | .error failure => .ok ⟨1, told ++ o.shown [errorLine failure.message], none⟩

def Options.process (o : Options) (limits : Limits) (earlier : List String) (grammar : Source) :
    Except Fault Report :=
  match grammar with
  | .unreadable problem => failed (.format (.unreadable problem))
  | .document d =>
    match Grammar.ofDocument d with
    | .error failure => failed failure
    | .ok g => o.runPass limits (earlier ++ o.shown (readingLines d g)) g
where
  failed (failure : Failure) : Except Fault Report :=
    .ok ⟨1, earlier ++ o.shown [errorLine ("Cannot read grammar: " ++ failure.message)], none⟩

/-- Reads the settings, if there are any, and goes on with the grammar. -/
def Options.execute (o : Options) (settings : Option Source) (grammar : Source) :
    Except Fault Report :=
  match settings with
  | none => o.process Settings.defaults.limits [] grammar
  | some source =>
    let reading := Settings.defaults.read source
    let told := o.shown reading.warnings
    match reading.outcome with
    | .ok () => o.process reading.settings.limits told grammar
    | .error problem =>
      .ok ⟨1, told ++ o.shown [errorLine ("Cannot read settings: " ++ problem.message)], none⟩

/-- What the program can read and write: files by name, the standard input, and the names under
which a result can be written. -/
structure Surroundings where
  files : List (String × Source)
  standard : Source
  canCreate : String → Bool

namespace Surroundings

/-- The source that a name stands for; a dash is the standard input. -/
def open? (s : Surroundings) (name : String) : Option Source :=
  if name = "-" then some s.standard else (s.files.find? (·.1 = name)).map Prod.snd

/-- What is left to read after one name has been read: the standard input gives nothing more. -/
def after (s : Surroundings) (name : String) : Surroundings :=
  if name = "-" then { s with standard := .document .null } else s

def canOpen (s : Surroundings) (name : String) : Bool := (s.open? name).isSome

/-- Whether a result can go where a name says; a dash is the standard output. -/
def canWrite (s : Surroundings) (name : String) : Bool := name = "-" || s.canCreate name

def serves (s : Surroundings) (o : Options) : Bool :=
  o.opened.all s.canOpen && o.target.all s.canWrite

end Surroundings

/-- The status when the arguments are refused. -/
def refusalStatus : Nat := 2

/-- What becomes of a command line. -/
inductive Result where
  | refused
  | help
  | done (report : Report) (target : Option String)

/-- Runs the program. Arguments that make no sense, or that name a file that cannot be read or
written, are refused. -/
def run (surroundings : Surroundings) (arguments : List String) : Except Fault Result :=
  match Request.read arguments with
  | none => .ok .refused
  | some (.help o) => .ok (if surroundings.serves o then .help else .refused)
  | some (.work o) =>
    let left := o.settings.elim surroundings surroundings.after
    match left.open? (o.files.head?.getD "-"), o.settings.mapM surroundings.open? with
    | some grammar, some settings =>
      if surroundings.serves o then do
        let report ← o.execute settings grammar
        return .done report o.target
      else .ok .refused
    | _, _ => .ok .refused

end Ebnf.CommandLine
