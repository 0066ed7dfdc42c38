import Ebnf.Failure
import Ebnf.Log

/-! What happens while a grammar is edited, in order: changes that are committed to the audit
trail, names that are made up, and remarks. -/
namespace Ebnf

/-- A remark on the course of a pass. -/
inductive Remark where
  | done (kind : Transformation) (records : Nat)
  | expanding (shorthand : Symbol) (rule : Rule) (fresh : Name)
  | selfLoop (unit : Rule)
  | reproducing (unit : Rule)
  | factored (lead : Symbol) (alternatives : Nat) (head fresh : Name)
  | onlyLeftRecursive (head : Name)
  | directRemoved (head fresh : Name)
  | substituted (root : Name) (rule : Rule)
  | removed (heads : List Name)
  | augmentedAlready (start : Name)
  | problem (d : Diagnostic)
  | stage (pass : Pass) (records : Nat)
  | finished (pass : Pass) (records rules : Nat)

/-- One thing that happens. A name is made up for the grammar as it was before the change that
needs the name touched it. -/
inductive Event where
  | committed (record : Record)
  | minted (name : Name) (before : Grammar)
  | remarked (remark : Remark)

def Remark.line : Remark → Log.Line
  | .done kind records => ⟨.debug, .transformations, s!"{kind.title}: {records} rewrites"⟩
  | .expanding shorthand rule fresh =>
    ⟨.debug, .shorthand, s!"Expanding {shorthand.text} in {rule.text} as {fresh.text}"⟩
  | .selfLoop unit => ⟨.debug, .units, s!"Ignoring self-loop {unit.text}"⟩
  | .reproducing unit =>
    ⟨.debug, .units, s!"Ignoring {unit.text}: expansion would reproduce it"⟩
  | .factored lead alternatives head fresh =>
    ⟨.debug, .sharedLeads,
      s!"Factored {lead.text} out of {alternatives} alternatives of {head.text} " ++
        s!"into {fresh.text}"⟩
  | .onlyLeftRecursive head =>
    ⟨.debug, .leftRecursion,
      s!"Every alternative of {head.text} is left-recursive; left in place"⟩
  | .directRemoved head fresh =>
    ⟨.debug, .leftRecursion,
      s!"Removed direct left recursion of {head.text} using {fresh.text}"⟩
  | .substituted root rule =>
    ⟨.debug, .leftRecursion, s!"Substituted {root.text} into {rule.text}"⟩
  | .removed heads =>
    ⟨.debug, .reachability,
      "Unreachable symbols removed: " ++ ", ".intercalate (heads.map Name.text)⟩
  | .augmentedAlready start =>
    ⟨.debug, .augmentation, s!"Start symbol {start.text} is already augmented"⟩
  | .problem d => ⟨.debug, .problems, d.text⟩
  | .stage pass records => ⟨.debug, .passes, s!"{pass.title}: {records} records"⟩
  | .finished pass records rules =>
    ⟨.info, .passes, s!"{pass.title}: {records} rewrites, {rules} productions"⟩

def Event.line? : Event → Option Log.Line
  | .committed record => some ⟨.debug, .transformations, record.text⟩
  | .minted .. => none
  | .remarked remark => some remark.line

/-- The record that an event commits, if it commits one. -/
def Event.record? : Event → Option Record
  | .committed record => some record
  | _ => none

end Ebnf
