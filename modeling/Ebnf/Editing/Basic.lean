import Ebnf.Document.Number
import Ebnf.Grammar.Edit
import Ebnf.Editing.Event

/-! Editing: programs that change a grammar and tell what they do. One that fails leaves the
grammar as far as it was changed, and all that had happened by then. -/
namespace Ebnf

/-- What a program did: the grammar it leaves, what happened, and how it ended. -/
structure Run (α : Type) where
  grammar : Grammar
  events : List Event
  outcome : Except Failure α

variable {α β σ : Type}

namespace Run

def records (r : Run α) : List Record := r.events.filterMap Event.record?

/-- A run that follows on earlier events. -/
def after (earlier : List Event) (r : Run α) : Run α :=
  { r with events := earlier ++ r.events }

/-- A run whose result is given along with its records. -/
def withRecords (r : Run α) : Run (α × List Record) :=
  ⟨r.grammar, r.events, r.outcome.map (·, r.records)⟩

end Run

/-- A program that changes a grammar. -/
def Editing (α : Type) : Type := Grammar → Run α

namespace Editing

/-- Goes on with a second program where the first succeeds. -/
def andThen (x : Editing α) (f : α → Editing β) : Editing β := fun g =>
  match x g with
  | ⟨g', events, .ok a⟩ => (f a g').after events
  | ⟨g', events, .error e⟩ => ⟨g', events, .error e⟩

instance : Monad Editing where
  pure a := fun g => ⟨g, [], .ok a⟩
  bind := andThen

def current : Editing Grammar := fun g => ⟨g, [], .ok g⟩

def edit (f : Grammar → Grammar) : Editing Unit := fun g => ⟨f g, [], .ok ()⟩

def tell (e : Event) : Editing Unit := fun g => ⟨g, [e], .ok ()⟩

def remark (r : Remark) : Editing Unit := tell (.remarked r)

def fail (e : Failure) : Editing α := fun g => ⟨g, [], .error e⟩

/-- Gives the result of a computation, or fails as it does. -/
def ofExcept (x : Except Failure α) : Editing α := fun g => ⟨g, [], x⟩

/-- Runs a program and gives its records along with its result. -/
def recorded (x : Editing α) : Editing (α × List Record) := fun g => (x g).withRecords

def erase (rule : Rule) : Editing Unit := do
  let g ← current
  let edited ← ofExcept ((g.erase rule).mapError .fault)
  edit (fun _ => edited)

def replace (rule : Rule) (replacements : List Rule) : Editing Unit := do
  let g ← current
  let edited ← ofExcept ((g.replace rule replacements).mapError .fault)
  edit (fun _ => edited)

/-- What a step of a loop came to: nothing is left to do, or it has to be seen again. -/
inductive Progress (σ : Type) where
  | settled (state : σ)
  | unsettled (state : σ)

/-- Repeats a step until it settles, at most the given number of times. -/
def settleWithin (exceeded : Failure) (step : σ → Editing (Progress σ)) :
    Nat → σ → Editing σ
  | 0, _ => fail exceeded
  | limit + 1, state => do
    match ← step state with
    | .settled state => return state
    | .unsettled state => settleWithin exceeded step limit state

/-- Repeats a step until it settles. The limit must be a whole number, and one of zero or less
admits no step at all. -/
def settle (loop : Loop) (limit : Document) (step : σ → Editing (Progress σ)) (state : σ) :
    Editing σ :=
  match limit.whole? with
  | some rounds => settleWithin (.divergence loop limit .iterations) step rounds.toNat state
  | none => fail (.fault .unusableLimit)

/-- Repeats a step that tells whether it settles. -/
def repeatUntil (loop : Loop) (limit : Document) (step : Editing Bool) : Editing Unit :=
  settle loop limit
    (fun _ => do
      let settled ← step
      return if settled then .settled () else .unsettled ())
    ()

/-- Commits a change to the audit trail. -/
def commit (kind : Transformation) (replaced : Rule) (replacements : List Rule) : Editing Unit :=
  tell (.committed ⟨replaced, replacements, kind.reason⟩)

/-- Does the work of a transformation, for which the grammar must be free of shorthand unless it
is the one that expands it, and tells how many records there are of it. -/
def perform (kind : Transformation) (work : Editing α) : Editing α := do
  let g ← current
  if kind ≠ .shorthand then ofExcept (g.requirePlain.mapError .misuse)
  let done ← recorded work
  remark (.done kind done.2.length)
  return done.1

end Editing

/-- What bounds the work of a pass: how often a loop goes round, and how many times its size a
grammar may grow to while left recursion is removed. These are as the settings have them, so they
need not be counts. -/
structure Limits where
  maxIterations : Document
  maxGrowth : Document

/-- Limits that are whole numbers. -/
def Limits.ofCounts (maxIterations maxGrowth : Int) : Limits :=
  ⟨.int maxIterations, .int maxGrowth⟩

end Ebnf
