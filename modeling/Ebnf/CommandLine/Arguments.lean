import Ebnf.Pass.Basic
import Ebnf.Text.Basic

/-! Reading the arguments of the command line. Long options may be cut short as long as only one
begins that way, the value of an option may follow an equals sign, and short options may be put
together. Two files may be named, one after another: the grammar and where the result goes. -/
namespace Ebnf.CommandLine

/-- The options there are. -/
inductive Flag where
  | help
  | clean
  | fix
  | lr1
  | records
  | ebnf
  | settings
  | verbose
  deriving DecidableEq

namespace Flag

def all : List Flag := [help, clean, fix, lr1, records, ebnf, settings, verbose]

def title : Flag → String
  | help => "--help"
  | clean => "--clean"
  | fix => "--fix"
  | lr1 => "--lr1"
  | records => "--records"
  | ebnf => "--ebnf"
  | settings => "--settings"
  | verbose => "--verbose"

def letter? : Flag → Option Char
  | help => some 'h'
  | verbose => some 'v'
  | _ => none

/-- The pass that an option chooses instead of the usual one. -/
def pass? : Flag → Option Pass
  | clean => some .cleanUntilQuiet
  | fix => some .fixUntilQuiet
  | lr1 => some .prepareLR1
  | _ => none

end Flag

/-- What is asked for: whether another pass than the usual one is chosen, what is shown, the
settings, and the files. All names that are opened for reading are kept, as an option that is
given again names a second file. -/
structure Options where
  mode : Option Flag
  showRecords : Bool
  asEbnf : Bool
  verbose : Bool
  settings : Option String
  files : List String
  opened : List String

namespace Options

/-- What is asked for without any arguments. -/
def plain : Options := ⟨none, false, false, false, none, [], []⟩

/-- Takes the settings from a file. Two dashes name none and leave the settings as they are without
the option. -/
def withSettings (o : Options) (path : String) : Options :=
  if path = "--" then { o with settings := none }
  else { o with settings := some path, opened := o.opened ++ [path] }

/-- Names a file more. The first is read, and the second is where the result goes. For that one two
dashes stand for the standard output as one does. -/
def withFile (o : Options) (path : String) : Options :=
  if o.files = [] then { o with files := [path], opened := o.opened ++ [path] }
  else { o with files := o.files ++ [if path = "--" then "-" else path] }

/-- Where the result goes. -/
def target (o : Options) : Option String := o.files[1]?

def pass (o : Options) : Pass := (o.mode.bind Flag.pass?).getD .normalize

end Options

/-- One argument: an option, perhaps with a value attached, or a value of its own. -/
inductive Argument where
  | flag (f : Flag) (attached : Option String)
  | letters (cs : List Char)
  | value (text : String)
  | separator
  | unknown

/-- Whether characters are a number: digits, or a point with digits behind it and perhaps in front
of it. -/
def isNumeral (cs : List Char) : Bool :=
  match cs.dropWhile Text.isDecimalDigit with
  | [] => cs ≠ []
  | '.' :: places => places ≠ [] && places.all Text.isDecimalDigit
  | _ => false

/-- Whether a text is a negative number, which is a value and not an option. A line feed may end
it. -/
def isNegativeNumber (text : String) : Bool :=
  match text.toList with
  | '-' :: cs => isNumeral (if cs.getLast? = some '\n' then cs.dropLast else cs)
  | _ => false

/-- The name in front of an equals sign, and the value behind the first one if there is any. -/
def splitAttached (text : String) : String × Option String :=
  match text.toList.dropWhile (· ≠ '=') with
  | [] => (text, none)
  | _ :: value => (String.ofList (text.toList.takeWhile (· ≠ '=')), some (String.ofList value))

/-- The letters behind the first one. They may be set off from it by an equals sign. -/
def attachedLetters : List Char → List Char
  | '=' :: letter :: rest => letter :: rest
  | letters => letters

/-- Reads one argument. A beginning that several options share is refused. -/
def Argument.read (text : String) : Option Argument :=
  match text.toList with
  | ['-', '-'] => some .separator
  | '-' :: '-' :: _ =>
    let (name, attached) := splitAttached text
    match Flag.all.find? (·.title = name) with
    | some f => some (.flag f attached)
    | none =>
      match Flag.all.filter (fun f => name.toList.isPrefixOf f.title.toList) with
      | [f] => some (.flag f attached)
      | [] => some (if text.toList.contains ' ' then .value text else .unknown)
      | _ => none
  | '-' :: letter :: rest =>
    if Flag.all.any (·.letter? = some letter) then some (.letters (letter :: attachedLetters rest))
    else if isNegativeNumber text || text.toList.contains ' ' then some (.value text)
    else some .unknown
  | _ => some (.value text)

/-- Reads the arguments in turn; all that follow a separator are values. -/
def Argument.readAll : List String → Option (List Argument)
  | [] => some []
  | text :: rest => do
    match ← Argument.read text with
    | .separator => return .separator :: rest.map .value
    | argument => return argument :: (← readAll rest)

/-- Where the reading stands with regard to the files: before the first, among them, or behind an
option that has followed them. -/
inductive Naming where
  | before
  | among
  | behind

/-- Whether no file can be named any more. -/
def Naming.isOver : Naming → Bool
  | .behind => true
  | _ => false

/-- An option ends the run of files. -/
def Naming.ended : Naming → Naming
  | .before => .before
  | _ => .behind

/-- What the arguments ask for: work, or the help text. The options in front of the request for help
count only for the files that they name. -/
inductive Request where
  | help (o : Options)
  | work (o : Options)

/-- Applies an option that takes no value. Two options that choose different passes are
refused. -/
def Flag.apply (f : Flag) (o : Options) : Option Options :=
  match f with
  | .records => some { o with showRecords := true }
  | .ebnf => some { o with asEbnf := true }
  | .verbose => some { o with verbose := true }
  | .clean | .fix | .lr1 =>
    if o.mode.all (· = f) then some { o with mode := some f } else none
  | .help | .settings => none

/-- The options that letters put together stand for. A letter that stands for none is refused. -/
def readLetters (letters : List Char) : Option (List Flag) :=
  letters.mapM fun letter => Flag.all.find? (·.letter? = some letter)

/-- Reads what is asked for from the arguments. Values and a separator that come after an option has
followed the first file, unknown options and a third file are refused at the end, when no request
for help has come before. -/
def Request.of (excess : Bool) (naming : Naming) (o : Options) : List Argument → Option Request
  | [] => if excess then none else some (.work o)
  | .separator :: rest => of (excess || naming.isOver) naming o rest
  | .unknown :: rest => of true naming.ended o rest
  | .value text :: rest =>
    if naming.isOver then of true naming o rest
    else if o.files.length < 2 then of excess .among (o.withFile text) rest
    else of true .among o rest
  | .letters cs :: rest => do
    let flags ← readLetters cs
    if .help ∈ flags then return .help o
    of excess naming.ended { o with verbose := true } rest
  | .flag .settings (some path) :: rest => of excess naming.ended (o.withSettings path) rest
  | .flag .settings none :: .value path :: rest =>
    of excess naming.ended (o.withSettings path) rest
  | .flag .settings none :: _ => none
  | .flag _ (some _) :: _ => none
  | .flag .help none :: _ => some (.help o)
  | .flag f none :: rest => do
    let o ← f.apply o
    of excess naming.ended o rest

def Request.read (arguments : List String) : Option Request := do
  of false .before .plain (← Argument.readAll arguments)

end Ebnf.CommandLine
