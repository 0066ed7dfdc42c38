import Mathlib
import Ebnf.CommandLine.Execution
import Ebnf.Proofs.Grammar.Refusal
import Ebnf.Proofs.Pass.Failures
import Ebnf.Proofs.Pass.Rereading
import Ebnf.Proofs.Settings

/-! The program as a whole. Each stage either hands on what the next one needs or fails in a way
that is reported: settings that are accepted are counts, a pass with counts for limits fails only in
ways that are foreseen, and what it leaves when it succeeds has no shorthand and can be written. So
no fault is passed on, whatever the program is given. -/
namespace Ebnf

open Grammar

namespace CommandLine

variable {o : Options} {settings : Option Source} {source : Source} {s : Settings} {g : Grammar}
  {limits : Limits} {told : List String}

/-- The settings of an execution: the defaults, or what an accepted document leaves of them. -/
def settingsFrom : Option Source → Except SettingsProblem Settings
  | none => .ok Settings.defaults
  | some source =>
    let reading := Settings.defaults.read source
    reading.outcome.map fun _ => reading.settings

/-- All stages of an execution succeed and come to an output: the settings are accepted, the grammar
is read, the pass ends, and what it leaves is written. -/
def Options.Completes (o : Options) (settings : Option Source) (source : Source)
    (output : Output) : Prop :=
  ∃ s g, settingsFrom settings = .ok s ∧ ofSource source = .ok g ∧
    (o.pass.run s.limits g).outcome = .ok () ∧
    o.output (o.pass.run s.limits g).grammar = .ok output

theorem settingsFrom_check (accepted : settingsFrom settings = .ok s) : s.check = .ok () := by
  cases settings with
  | none =>
    cases accepted
    exact Settings.check_defaults
  | some document =>
    cases outcome : (Settings.defaults.read document).outcome with
    | ok =>
      simp only [settingsFrom, outcome, Except.map, Except.ok.injEq] at accepted
      exact accepted ▸ Settings.check_of_read Settings.check_defaults outcome
    | error p => simp [settingsFrom, outcome, Except.map] at accepted

namespace Options

/-! What a pass comes to. -/

/-- What a pass leaves when it succeeds can be written. -/
theorem exists_document (o : Options) (ended : (o.pass.run limits g).outcome = .ok ()) :
    ∃ d, (o.pass.run limits g).grammar.toDocument = .ok d :=
  exists_toDocument fun _ member =>
    ⟨_, Symbol.documents_of_plain (plain_of_mem (o.pass_ready limits g ended).1 member)⟩

theorem exists_output (o : Options) (ended : (o.pass.run limits g).outcome = .ok ()) :
    ∃ output, o.output (o.pass.run limits g).grammar = .ok output := by
  unfold Options.output
  split
  · exact ⟨_, rfl⟩
  · obtain ⟨d, written⟩ := o.exists_document ended
    exact ⟨.document d, by rw [written]; rfl⟩

theorem pass_foreseen (o : Options) (accepted : settingsFrom settings = .ok s) :
    (o.pass.program s.limits).FailsWithin Failure.IsForeseen g := by
  obtain ⟨i, j, counts⟩ := Settings.exists_counts (settingsFrom_check accepted)
  rw [counts]
  refine o.pass.failsWithin_program i j fun same => ?_
  rcases o.pass_cases with chosen | chosen | chosen | chosen
  all_goals cases chosen.symm.trans same

/-! The stages. Each is left with a report, or goes on with the next one. -/

theorem execute_cases (o : Options) (settings : Option Source) (source : Source) :
    (∃ s, settingsFrom settings = .ok s ∧
        ∃ told, o.execute settings source = o.process s.limits told source) ∨
      ∃ p, settingsFrom settings = .error p ∧
        ∃ messages, o.execute settings source = .ok ⟨1, messages, none⟩ := by
  cases settings with
  | none => exact .inl ⟨Settings.defaults, rfl, [], rfl⟩
  | some document =>
    cases outcome : (Settings.defaults.read document).outcome with
    | ok =>
      refine .inl ⟨(Settings.defaults.read document).settings, ?_, ?_⟩
      · simp [settingsFrom, outcome, Except.map]
      · simp only [execute, outcome]
        exact ⟨_, rfl⟩
    | error p =>
      refine .inr ⟨p, ?_, ?_⟩
      · simp [settingsFrom, outcome, Except.map]
      · simp [execute, outcome]

theorem process_cases (o : Options) (limits : Limits) (told : List String) (source : Source) :
    (∃ g, ofSource source = .ok g ∧
        ∃ earlier, o.process limits told source = o.runPass limits earlier g) ∨
      ∃ e, ofSource source = .error e ∧
        ∃ messages, o.process limits told source = .ok ⟨1, messages, none⟩ := by
  cases source with
  | unreadable problem => exact .inr ⟨.format (.unreadable problem), rfl, _, rfl⟩
  | document d =>
    cases read : ofDocument d with
    | ok g =>
      refine .inl ⟨g, read, ?_⟩
      simp only [process, read]
      exact ⟨_, rfl⟩
    | error e =>
      refine .inr ⟨e, read, ?_⟩
      simp only [process, read]
      exact ⟨_, rfl⟩

theorem runPass_cases (told : List String)
    (foreseen : (o.pass.program limits).FailsWithin Failure.IsForeseen g) :
    (∃ output, (o.pass.run limits g).outcome = .ok () ∧
        o.output (o.pass.run limits g).grammar = .ok output ∧
        ∃ messages, o.runPass limits told g = .ok ⟨0, messages, some output⟩) ∨
      ∃ e, (o.pass.run limits g).outcome = .error e ∧
        ∃ messages, o.runPass limits told g = .ok ⟨1, messages, none⟩ := by
  cases ended : (o.pass.run limits g).outcome with
  | ok =>
    obtain ⟨output, written⟩ := o.exists_output ended
    refine .inl ⟨output, rfl, written, ?_⟩
    simp [runPass, ended, written, bind, Except.bind, pure, Except.pure]
  | error e =>
    refine .inr ⟨e, rfl, ?_⟩
    have known : e.IsForeseen := foreseen e ended
    cases e with
    | rejection | misuse | divergence => simp [runPass, ended]
    | contradiction | format | settings | fault => exact known.elim

/-- On whatever it is given the program ends with status 0 or 1, and no fault is passed on. It is 0
if and only if all stages succeed, and otherwise nothing is written. Settings are refused only for
what is wrong with them, a grammar only for its form or for what it asks for, the pass fails only in
ways that are foreseen, and what it leaves when it succeeds can be written. -/
theorem execute_reports (o : Options) (settings : Option Source) (source : Source) :
    (∃ report, o.execute settings source = .ok report ∧
      ((report.status = 0 ∧
          ∃ output, report.output = some output ∧ o.Completes settings source output) ∨
        report.status = 1 ∧ report.output = none ∧
          ∀ output, ¬ o.Completes settings source output)) ∧
    (∀ e, ofSource source = .error e → e.IsRefusal) ∧
    ∀ s g, settingsFrom settings = .ok s →
      (∀ e, (o.pass.run s.limits g).outcome = .error e → e.IsForeseen) ∧
        ((o.pass.run s.limits g).outcome = .ok () →
          ∃ d, (o.pass.run s.limits g).grammar.toDocument = .ok d) := by
  refine ⟨?_, ofSource_onlyRefuses source, fun s g accepted =>
    ⟨o.pass_foreseen accepted, o.exists_document⟩⟩
  obtain ⟨s, accepted, told, executed⟩ | ⟨p, refused, messages, executed⟩ :=
    o.execute_cases settings source
  · rw [executed]
    obtain ⟨g, read, earlier, processed⟩ | ⟨e, failed, messages, processed⟩ :=
      o.process_cases s.limits told source
    · rw [processed]
      obtain ⟨output, ended, written, messages, ran⟩ | ⟨e, failed, messages, ran⟩ :=
        runPass_cases earlier (o.pass_foreseen (g := g) accepted)
      · exact ⟨_, ran, .inl ⟨rfl, output, rfl, s, g, accepted, read, ended, written⟩⟩
      · refine ⟨_, ran, .inr ⟨rfl, rfl, ?_⟩⟩
        rintro output ⟨s', g', accepted', read', ended, _⟩
        cases accepted.symm.trans accepted'
        cases read.symm.trans read'
        cases failed.symm.trans ended
    · refine ⟨_, processed, .inr ⟨rfl, rfl, ?_⟩⟩
      rintro output ⟨_, g, _, read, _⟩
      cases failed.symm.trans read
  · refine ⟨_, executed, .inr ⟨rfl, rfl, ?_⟩⟩
    rintro output ⟨s, _, accepted, _⟩
    cases refused.symm.trans accepted

end Options

end CommandLine

/-- `list → list item` and `list → item`, where `item` heads no rule. -/
def Document.listing : Document :=
  .table [(.text "productions", .table [
    (.text "list", .list [.text "list item", .text "item"])])]

namespace CommandLine

/-- With a few rounds the grammar is normalized and written. Without any the settings are
refused. -/
theorem Options.execute_listing :
    let rounds (n : Int) : Source := .document (.table [(.text "max_iterations", .int n)])
    (∃ report, Options.plain.execute (some (rounds 3)) (.document .listing) = .ok report ∧
      report.status = 0 ∧ ∃ output, report.output = some output) ∧
    ∃ report, Options.plain.execute (some (rounds 0)) (.document .listing) = .ok report ∧
      report.status = 1 ∧ report.output = none := by
  intro rounds
  have refused : settingsFrom (some (rounds 0)) =
      .error (.notPositive "max_iterations" (.int 0)) := by cbv
  obtain ⟨s, g, accepted, read, ended⟩ : ∃ s g, settingsFrom (some (rounds 3)) = .ok s ∧
      ofSource (.document .listing) = .ok g ∧
      (Options.plain.pass.run s.limits g).outcome = .ok () := ⟨_, _, by cbv, by cbv, by cbv⟩
  obtain ⟨output, written⟩ := Options.plain.exists_output ended
  obtain ⟨⟨first, executed, settled⟩, _⟩ :=
    Options.plain.execute_reports (some (rounds 3)) (.document .listing)
  obtain ⟨⟨second, stopped, failed⟩, _⟩ :=
    Options.plain.execute_reports (some (rounds 0)) (.document .listing)
  refine ⟨⟨first, executed, ?_⟩, second, stopped, ?_⟩
  · rcases settled with ⟨zero, output, there, _⟩ | ⟨_, _, never⟩
    · exact ⟨zero, output, there⟩
    · exact absurd ⟨s, g, accepted, read, ended, written⟩ (never output)
  · rcases failed with ⟨_, _, _, s, _, accepted, _⟩ | ⟨one, nothing, _⟩
    · cases refused.symm.trans accepted
    · exact ⟨one, nothing⟩

end CommandLine

end Ebnf
