import Ebnf.Proofs.Analysis.SharedLeads
import Ebnf.Proofs.Editing.Traced

/-! Programs that succeed without a record. A change commits at least one record, so a program that
goes by changes leaves the grammar alone if it commits none; and a loop that is left can only be
left by a step that settles, so a loop that commits nothing settles at once. -/
namespace Ebnf

namespace Path

open Grammar

variable {among : Transformation → Prop} {g g' : Grammar} {kind : Transformation}
  {events : List Event}

theorem exists_committed (change : Change kind g events g') :
    ∃ replaced replacements, Event.record kind replaced replacements ∈ events := by
  cases change with
  | expansion => exact ⟨_, _, .tail _ (.tail _ (.head _))⟩
  | unit => exact ⟨_, _, .head _⟩
  | factoring shared =>
    obtain ⟨rule, member⟩ := exists_mem_leadGroup shared
    exact ⟨_, _, List.mem_append_left _ (.tail _ (List.mem_map.mpr ⟨rule, member, rfl⟩))⟩
  | @loops _ _ head _ _ recursive nothing =>
    obtain ⟨rule, member⟩ := List.exists_mem_of_ne_nil _ recursive
    have alone : rule.rest = [] := by
      simpa using List.filter_eq_nil_iff.mp nothing rule member
    have listed : rule ∈ g.loopsOf head := List.mem_filter.mpr ⟨member, decide_eq_true alone⟩
    exact ⟨_, _, List.mem_map.mpr ⟨rule, listed, rfl⟩⟩
  | @direct _ _ head _ based =>
    obtain ⟨rule, member⟩ := List.exists_mem_of_ne_nil _ based
    let entry := (rule, [DirectRecursion.closing (g.continuation head) rule])
    have listed : entry ∈ (g.directRecursion head).replacements (g.continuation head) :=
      List.mem_append_left _ (List.mem_append_left _ (List.mem_map.mpr ⟨rule, member, rfl⟩))
    exact ⟨_, _, List.mem_append_left _
      (List.mem_append_right _ (.tail _ (List.mem_map.mpr ⟨entry, listed, rfl⟩)))⟩
  | substitution => exact ⟨_, _, .head _⟩
  | removal _ dead =>
    obtain ⟨rule, member⟩ := List.exists_mem_of_ne_nil _ dead
    exact ⟨_, _, List.mem_append_left _ (List.mem_map.mpr ⟨rule, member, rfl⟩)⟩
  | deduplication repeated =>
    obtain ⟨rule, member⟩ := List.exists_mem_of_ne_nil _ repeated
    exact ⟨_, _, List.mem_map.mpr ⟨rule, member, rfl⟩⟩
  | augmentation => exact ⟨_, _, .tail _ (.head _)⟩

theorem eq_of_no_records (path : Path among g events g')
    (quiet : events.filterMap Event.record? = []) : g' = g := by
  induction path with
  | refl => rfl
  | remark _ _ ih => exact ih quiet
  | next _ change _ _ =>
    obtain ⟨replaced, replacements, member⟩ := exists_committed change
    rw [List.filterMap_append, List.append_eq_nil_iff] at quiet
    have record := List.filterMap_eq_nil_iff.mp quiet.1 _ member
    cases record

end Path

namespace Editing

variable {α β σ : Type} {among : Transformation → Prop} {g g' : Grammar} {a : α} {b : β}

/-- A program succeeds with a result and commits nothing. -/
def Quiet (x : Editing α) (g : Grammar) (a : α) : Prop :=
  (x g).outcome = .ok a ∧ (x g).records = []

theorem Quiet.grammar_eq {x : Editing α} (quiet : x.Quiet g a) (traced : x.Traced among g) :
    (x g).grammar = g :=
  Path.eq_of_no_records traced quiet.2

@[simp] theorem quiet_pure {a' : α} : (pure a : Editing α).Quiet g a' ↔ a = a' := by
  simp [Quiet, Run.records]

@[simp] theorem quiet_remark {r : Remark} {u : Unit} : (remark r).Quiet g u := by
  simp [Quiet, Run.records, Event.record?]

@[simp] theorem not_quiet_fail {e : Failure} : ¬ (fail e : Editing α).Quiet g a := by
  simp [Quiet]

@[simp] theorem quiet_ofExcept {x : Except Failure α} : (ofExcept x).Quiet g a ↔ x = .ok a := by
  simp [Quiet, Run.records]

theorem quiet_current_bind {f : Grammar → Editing β} :
    (current >>= f).Quiet g b ↔ (f g).Quiet g b := Iff.rfl

@[simp] theorem not_quiet_commit_bind {kind : Transformation} {replaced : Rule}
    {replacements : List Rule} {f : Unit → Editing β} :
    ¬ (commit kind replaced replacements >>= f).Quiet g b := by
  simp [Quiet, Event.record, Event.record?]

theorem quiet_bind {x : Editing α} {f : α → Editing β} (traced : x.Traced among g) :
    (x >>= f).Quiet g b ↔ ∃ a, x.Quiet g a ∧ (f a).Quiet g b := by
  constructor
  · rintro ⟨ended, silent⟩
    cases first : (x g).outcome with
    | error e =>
      rw [run_bind_error first] at ended
      cases ended
    | ok a =>
      rw [run_bind_ok first] at ended silent
      rw [Run.records_after, List.append_eq_nil_iff] at silent
      have quiet : x.Quiet g a := ⟨first, silent.1⟩
      rw [quiet.grammar_eq traced] at ended silent
      exact ⟨a, quiet, ended, silent.2⟩
  · rintro ⟨a, quiet, ended, silent⟩
    have records : (x g).events.filterMap Event.record? = [] := quiet.2
    rw [Quiet, run_bind_ok quiet.1, quiet.grammar_eq traced]
    exact ⟨ended, by rw [Run.records_after, records, silent]; rfl⟩

theorem quiet_bind_unit {x : Editing Unit} {f : Unit → Editing β} (traced : x.Traced among g) :
    (x >>= f).Quiet g b ↔ x.Quiet g () ∧ (f ()).Quiet g b := by
  rw [quiet_bind traced]
  exact ⟨fun ⟨_, both⟩ => both, fun both => ⟨(), both⟩⟩

theorem quiet_ofExcept_bind {x : Except Failure α} {f : α → Editing β} :
    (ofExcept x >>= f).Quiet g b ↔ ∃ a, x = .ok a ∧ (f a).Quiet g b := by
  simp [quiet_bind (traced_ofExcept x : (ofExcept x).Traced (fun _ => True) g)]

theorem quiet_remark_bind {r : Remark} {f : Unit → Editing β} :
    (remark r >>= f).Quiet g b ↔ (f ()).Quiet g b := by
  simp [quiet_bind_unit (traced_remark r : (remark r).Traced (fun _ => True) g)]

/-- A recording ends as the program does, and tells its records. -/
theorem recorded_eq_ok {x : Editing α} {done : α × List Record} :
    (x.recorded g).outcome = .ok done ↔ (x g).outcome = .ok done.1 ∧ done.2 = (x g).records := by
  obtain ⟨a, records⟩ := done
  change (x g).outcome.map (·, (x g).records) = _ ↔ _
  cases (x g).outcome with
  | error e => simp [Except.map]
  | ok b => simp [Except.map, eq_comm]

theorem quiet_recorded {x : Editing α} {done : α × List Record} :
    x.recorded.Quiet g done ↔ x.Quiet g done.1 ∧ done.2 = [] := by
  have kept : (x.recorded g).records = (x g).records := rfl
  rw [Quiet, kept, recorded_eq_ok, Quiet]
  constructor
  · rintro ⟨⟨ended, told⟩, silent⟩
    exact ⟨⟨ended, silent⟩, told.trans silent⟩
  · rintro ⟨⟨ended, silent⟩, none⟩
    exact ⟨⟨ended, none.trans silent.symm⟩, silent⟩

theorem quiet_perform {kind : Transformation} {work : Editing α} (traced : work.Traced among g) :
    (perform kind work).Quiet g a ↔
      (kind ≠ .shorthand → g.hasShorthand = false) ∧ work.Quiet g a := by
  have finished : (work.recorded >>= fun done => remark (.done kind done.2.length) >>= fun _ =>
      pure done.1).Quiet g a ↔ work.Quiet g a := by
    rw [quiet_bind (traced_recorded traced)]
    simp only [quiet_recorded, quiet_remark_bind, quiet_pure, Prod.exists]
    constructor
    · rintro ⟨_, _, ⟨quiet, _⟩, rfl⟩
      exact quiet
    · exact fun quiet => ⟨a, [], ⟨quiet, rfl⟩, rfl⟩
  unfold perform
  rw [quiet_current_bind]
  split
  · next other =>
    rw [quiet_ofExcept_bind]
    simp only [mapError_eq_ok]
    constructor
    · rintro ⟨_, plain, quiet⟩
      exact ⟨fun _ => Grammar.requirePlain_eq_ok.mp plain, finished.mp quiet⟩
    · rintro ⟨plain, quiet⟩
      exact ⟨(), Grammar.requirePlain_eq_ok.mpr (plain other), finished.mpr quiet⟩
  · next same => simp [finished, same]

/-- On a grammar without shorthand a transformation does its work and tells how much it was. -/
theorem run_perform {kind : Transformation} {work : Editing α} (plain : g.hasShorthand = false) :
    perform kind work g = (work.recorded >>= fun done =>
      remark (.done kind done.2.length) >>= fun _ => pure done.1) g := by
  unfold perform
  rw [run_current_bind]
  split
  · rw [Grammar.requirePlain_eq_ok.mpr plain]
    rfl
  · rfl

theorem run_perform_ok {kind : Transformation} {work : Editing α} (plain : g.hasShorthand = false)
    (ended : (work g).outcome = .ok a) : perform kind work g = ⟨(work g).grammar,
      (work g).events ++ [.remarked (.done kind (work g).records.length)], .ok a⟩ := by
  have done : (work.recorded g).outcome = .ok (a, (work g).records) :=
    recorded_eq_ok.mpr ⟨ended, rfl⟩
  rw [run_perform plain, run_bind_ok done]
  rfl

/-- It ends as its work does. -/
theorem outcome_perform {kind : Transformation} {work : Editing α}
    (plain : g.hasShorthand = false) : (perform kind work g).outcome = (work g).outcome := by
  cases ended : (work g).outcome with
  | ok a => rw [run_perform_ok plain ended]
  | error e =>
    have failed : (work.recorded g).outcome = .error e := by
      change (work g).outcome.map _ = _
      rw [ended]
      rfl
    rw [run_perform plain, run_bind_error failed]

/-! Loops. -/

/-- A loop that succeeds was left by a step that settled, and that step began with what every step
before it keeps. -/
theorem settleWithin_ok {I : σ → Grammar → Prop} {e : Failure} {step : σ → Editing (Progress σ)}
    {rounds : Nat} {s last : σ} (kept : ∀ s g next, I s g →
      (step s g).outcome = .ok (.unsettled next) → I next (step s g).grammar)
    (initial : I s g) (ended : (settleWithin e step rounds s g).outcome = .ok last) :
    ∃ s' g', I s' g' ∧ (step s' g').outcome = .ok (.settled last) ∧
      (settleWithin e step rounds s g).grammar = (step s' g').grammar := by
  induction rounds generalizing s g with
  | zero => cases ended
  | succ rounds ih =>
    rw [settleWithin] at ended ⊢
    cases first : (step s g).outcome with
    | error e =>
      rw [run_bind_error first] at ended
      cases ended
    | ok progress =>
      rw [run_bind_ok first] at ended ⊢
      cases progress with
      | settled s' =>
        obtain rfl : s' = last := by simpa using ended
        exact ⟨s, g, initial, first, rfl⟩
      | unsettled s' => exact ih (kept s g s' initial first) ended

/-- The step of a loop that only tells whether it settles. -/
def progress (step : Editing Bool) : Unit → Editing (Progress Unit) := fun _ => do
  let settled ← step
  return if settled then .settled () else .unsettled ()

theorem repeatUntil_eq {loop : Loop} {limit : Document} {step : Editing Bool} :
    repeatUntil loop limit step = settle loop limit (progress step) () := rfl

theorem progress_settled_iff {step : Editing Bool} :
    (progress step () g).outcome = .ok (.settled ()) ↔ (step g).outcome = .ok true := by
  rw [progress, run_bind_pure]
  cases (step g).outcome with
  | error e => simp [Except.map]
  | ok settled => cases settled <;> simp [Except.map]

/-- A round that settles ends a loop with rounds left. -/
theorem settleWithin_of_settled {e : Failure} {step : Editing Bool} {events : List Event}
    {g' : Grammar} {rounds : Nat} (run : step g = ⟨g', events, .ok true⟩) :
    (settleWithin e (progress step) (rounds + 1) () g).outcome = .ok () := by
  have first : (progress step () g).outcome = .ok (.settled ()) :=
    progress_settled_iff.mpr (by rw [run])
  rw [settleWithin, run_bind_ok first]
  rfl

/-- After another round a loop goes on from the grammar that the round leaves. -/
theorem settleWithin_of_unsettled {e : Failure} {step : Editing Bool} {events : List Event}
    {g' : Grammar} {rounds : Nat} (run : step g = ⟨g', events, .ok false⟩) :
    (settleWithin e (progress step) (rounds + 1) () g).outcome =
      (settleWithin e (progress step) rounds () g').outcome := by
  have stepped : progress step () g = ⟨g', events, .ok (.unsettled ())⟩ := by
    rw [progress, run_bind_pure, run]
    rfl
  rw [settleWithin, run_bind_ok (a := .unsettled ()) (by rw [stepped]), stepped]
  rfl

theorem repeatUntil_ok {loop : Loop} {limit : Document} {step : Editing Bool}
    (ended : (repeatUntil loop limit step g).outcome = .ok ()) :
    ∃ g', (step g').outcome = .ok true ∧
      (repeatUntil loop limit step g).grammar = (step g').grammar := by
  rw [repeatUntil_eq, settle] at ended ⊢
  cases whole : limit.whole? with
  | none => simp [whole] at ended
  | some rounds =>
    rw [whole] at ended
    obtain ⟨⟨⟩, g', _, last, left⟩ :=
      settleWithin_ok (I := fun _ _ => True) (fun _ _ _ _ _ => trivial) trivial ended
    exact ⟨g', progress_settled_iff.mp last, left.trans (by rw [progress, run_bind_pure])⟩

/-- A limit admits a round if it is a whole number above zero. -/
def Admits (limit : Document) : Prop := ∃ rounds : Int, limit.whole? = some rounds ∧ 0 < rounds

/-- A loop that commits nothing commits nothing in its first round. -/
theorem quiet_settle_first {loop : Loop} {limit : Document} {step : σ → Editing (Progress σ)}
    {s last : σ} (traced : (step s).Traced among g)
    (quiet : (settle loop limit step s).Quiet g last) :
    Admits limit ∧ ∃ progress, (step s).Quiet g progress := by
  unfold settle at quiet
  split at quiet
  · next rounds whole =>
    cases positive : rounds.toNat with
    | zero => exact absurd (positive ▸ quiet) not_quiet_fail
    | succ more =>
      rw [positive, settleWithin, quiet_bind traced] at quiet
      obtain ⟨progress, first, _⟩ := quiet
      exact ⟨⟨rounds, whole, by omega⟩, progress, first⟩
  · exact absurd quiet not_quiet_fail

theorem quiet_settle_of_settled {loop : Loop} {limit : Document} {step : σ → Editing (Progress σ)}
    {s last : σ} (traced : (step s).Traced among g) (admits : Admits limit)
    (quiet : (step s).Quiet g (.settled last)) : (settle loop limit step s).Quiet g last := by
  obtain ⟨rounds, whole, positive⟩ := admits
  rw [settle, whole]
  obtain ⟨more, same⟩ : ∃ more, rounds.toNat = more + 1 := ⟨rounds.toNat - 1, by omega⟩
  change (settleWithin _ step rounds.toNat s).Quiet g last
  rw [same, settleWithin, quiet_bind traced]
  exact ⟨_, quiet, quiet_pure.mpr rfl⟩

/-- A loop without a state that commits nothing is where it began when it settles. -/
theorem quiet_repeatUntil {loop : Loop} {limit : Document} {step : Editing Bool}
    (traced : ∀ g, step.Traced among g) :
    (repeatUntil loop limit step).Quiet g () ↔ Admits limit ∧ step.Quiet g true := by
  have stepped : (progress step ()).Traced among g :=
    traced_bind (traced g) fun settled _ => by cases settled <;> exact traced_pure _
  have settled : (progress step ()).Quiet g (.settled ()) ↔ step.Quiet g true := by
    rw [Quiet, progress_settled_iff, Quiet, progress, run_bind_pure]
    rfl
  rw [repeatUntil_eq]
  constructor
  · intro quiet
    refine ⟨(quiet_settle_first stepped quiet).1, settled.mp ?_⟩
    unfold settle at quiet
    split at quiet
    · next rounds _ =>
      generalize rounds.toNat = rounds at quiet
      induction rounds with
      | zero => exact absurd quiet not_quiet_fail
      | succ rounds ih =>
        rw [settleWithin, quiet_bind stepped] at quiet
        obtain ⟨progress, first, rest⟩ := quiet
        cases progress with
        | settled _ => exact first
        | unsettled _ => exact ih rest
    · exact absurd quiet not_quiet_fail
  · rintro ⟨admits, quiet⟩
    exact quiet_settle_of_settled stepped admits (settled.mpr quiet)

theorem outcome_bind_ok {x : Editing α} {f : α → Editing β}
    (ended : ((x >>= f) g).outcome = .ok b) :
    ∃ a, (x g).outcome = .ok a ∧ (f a (x g).grammar).outcome = .ok b := by
  cases first : (x g).outcome with
  | error e =>
    rw [run_bind_error first] at ended
    cases ended
  | ok a =>
    rw [run_bind_ok first] at ended
    exact ⟨a, rfl, ended⟩

end Editing
end Ebnf
