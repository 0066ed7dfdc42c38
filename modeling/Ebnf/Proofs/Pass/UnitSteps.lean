import Ebnf.Proofs.Editing.Idempotent
import Ebnf.Proofs.Pass.Quiet

/-! The expansion of units step by step. A round goes through the rules there were before it. A rule
that is a unit, is still there and is not set aside is expanded or, where that would not help, set
aside; for any other rule nothing happens. Rounds are made until all units that remain are set
aside. -/
namespace Ebnf

open Grammar

variable {g g' g'' : Grammar} {rule : Rule} {target : Name} {aside aside' last rules : List Rule}
  {limits : Limits}

namespace Editing

/-- `UnitStep g aside rule aside' g'` says that the step for a rule leads from `g`, with some rules
set aside, to `g'` with others. -/
inductive UnitStep (g : Grammar) (aside : List Rule) (rule : Rule) :
    List Rule → Grammar → Prop where
  | expanded {target : Name} (waiting : rule ∉ aside) (member : rule ∈ g.rules)
      (unit : rule.unit? = some target) (unsettled : ¬ g.Settled rule target) :
      UnitStep g aside rule aside (g.replaced rule (g.unitExpansion rule target))
  | setAside {target : Name} (waiting : rule ∉ aside) (member : rule ∈ g.rules)
      (unit : rule.unit? = some target) (settled : g.Settled rule target) :
      UnitStep g aside rule (aside ++ [rule]) g
  | passed (done : rule.isUnit = true → rule ∈ g.rules → rule ∈ aside) :
      UnitStep g aside rule aside g

/-- The steps for some rules, one after the other. -/
inductive UnitSteps : Grammar → List Rule → List Rule → List Rule → Grammar → Prop where
  | nil {g : Grammar} {aside : List Rule} : UnitSteps g aside [] aside g
  | cons {g g' g'' : Grammar} {rule : Rule} {aside aside' rules last : List Rule}
      (step : UnitStep g aside rule aside' g') (rest : UnitSteps g' aside' rules last g'') :
      UnitSteps g aside (rule :: rules) last g''

theorem leaves_expandUnit (member : rule ∈ g.rules) :
    (expandUnit aside rule target).Leaves g last g' ↔
      g.Settled rule target ∧ last = aside ++ [rule] ∧ g' = g ∨
        ¬ g.Settled rule target ∧ last = aside ∧
          g' = g.replaced rule (g.unitExpansion rule target) := by
  unfold expandUnit Settled
  rw [leaves_current_bind]
  dsimp only
  split
  · next same =>
    rw [leaves_remark_bind, leaves_pure, eq_comm, @eq_comm _ g]
    simp [same]
  · next other =>
    split
    · next back =>
      rw [leaves_remark_bind, leaves_pure, eq_comm, @eq_comm _ g]
      simp [back]
    · next lost =>
      split
      · next undefined =>
        rw [leaves_pure, eq_comm, @eq_comm _ g]
        simp [undefined]
      · next defined =>
        rw [Leaves, run_replace_bind _ member, run_commit_bind]
        simp [Run.after, Grammar.replaced, other, lost, defined, eq_comm]

/-- What the step for a rule can do. -/
theorem leaves_expandIfUnit :
    (expandIfUnit aside rule).Leaves g last g' ↔ UnitStep g aside rule last g' := by
  unfold expandIfUnit
  rw [leaves_current_bind]
  constructor
  · intro left
    split at left
    · next target unit =>
      split at left
      · next there =>
        obtain ⟨waiting, member⟩ := there
        obtain ⟨settled, rfl, rfl⟩ | ⟨unsettled, rfl, rfl⟩ := (leaves_expandUnit member).mp left
        · exact .setAside waiting member unit settled
        · exact .expanded waiting member unit unsettled
      · next gone =>
        obtain ⟨rfl, rfl⟩ := leaves_pure.mp left
        exact .passed fun _ member => by_contra fun waiting => gone ⟨waiting, member⟩
    · next none =>
      obtain ⟨rfl, rfl⟩ := leaves_pure.mp left
      exact .passed fun unit => by simp [Rule.isUnit, none] at unit
  · intro step
    cases step with
    | expanded waiting member unit unsettled =>
      simp only [unit, waiting, member, not_false_eq_true, and_self, if_true]
      exact (leaves_expandUnit member).mpr (.inr ⟨unsettled, rfl, rfl⟩)
    | setAside waiting member unit settled =>
      simp only [unit, waiting, member, not_false_eq_true, and_self, if_true]
      exact (leaves_expandUnit member).mpr (.inl ⟨settled, rfl, rfl⟩)
    | passed done =>
      cases unit : rule.unit? with
      | none => exact leaves_pure.mpr ⟨rfl, rfl⟩
      | some target =>
        have gone : ¬ (rule ∉ aside ∧ rule ∈ g.rules) := fun there =>
          there.1 (done (by simp [Rule.isUnit, unit]) there.2)
        simp only [gone, if_false]
        exact leaves_pure.mpr ⟨rfl, rfl⟩

/-- No step fails. -/
theorem exists_unitStep (g : Grammar) (aside : List Rule) (rule : Rule) :
    ∃ aside' g', UnitStep g aside rule aside' g' := by
  by_cases there : rule.isUnit = true ∧ rule ∈ g.rules ∧ rule ∉ aside
  · obtain ⟨named, member, waiting⟩ := there
    obtain ⟨target, unit⟩ := Option.isSome_iff_exists.mp named
    by_cases settled : g.Settled rule target
    · exact ⟨_, _, .setAside waiting member unit settled⟩
    · exact ⟨_, _, .expanded waiting member unit settled⟩
  · exact ⟨_, _, .passed fun unit member => by_contra fun waiting =>
      there ⟨unit, member, waiting⟩⟩

theorem leaves_foldlM_expandIfUnit : (rules.foldlM expandIfUnit aside).Leaves g last g' ↔
    UnitSteps g aside rules last g' := by
  induction rules generalizing g aside with
  | nil =>
    constructor
    · intro left
      obtain ⟨rfl, rfl⟩ := leaves_pure.mp left
      exact .nil
    · rintro ⟨⟩
      exact leaves_pure.mpr ⟨rfl, rfl⟩
  | cons rule rules ih =>
    rw [List.foldlM_cons, leaves_bind]
    simp only [leaves_expandIfUnit, ih]
    constructor
    · rintro ⟨aside', g'', step, rest⟩
      exact .cons step rest
    · rintro (_ | ⟨step, rest⟩)
      exact ⟨_, _, step, rest⟩

theorem exists_unitSteps (g : Grammar) (aside rules : List Rule) :
    ∃ last g', UnitSteps g aside rules last g' := by
  induction rules generalizing g aside with
  | nil => exact ⟨aside, g, .nil⟩
  | cons rule rules ih =>
    obtain ⟨aside', g', step⟩ := exists_unitStep g aside rule
    obtain ⟨last, g'', rest⟩ := ih g' aside'
    exact ⟨last, g'', .cons step rest⟩

/-- A round makes the steps for all rules, and tells whether a unit is left that is not set
aside. -/
theorem leaves_unitRound {progress : Progress (List Rule)} :
    (unitRound aside).Leaves g progress g' ↔ ∃ last, UnitSteps g aside g.rules last g' ∧
      progress = if g'.rules.any (fun rule => rule.isUnit && rule ∉ last) then .unsettled last
        else .settled last := by
  unfold unitRound
  rw [leaves_current_bind, leaves_bind]
  simp only [leaves_foldlM_expandIfUnit, leaves_current_bind, leaves_pure]
  constructor
  · rintro ⟨last, g'', steps, rfl, rfl⟩
    exact ⟨last, steps, rfl⟩
  · rintro ⟨last, steps, rfl⟩
    exact ⟨last, g', steps, rfl, rfl⟩

/-- A round that does not settle leaves what its steps lead to. -/
theorem unitSteps_of_unsettled (left : (unitRound aside).Leaves g (.unsettled last) g') :
    UnitSteps g aside g.rules last g' := by
  obtain ⟨_, steps, told⟩ := leaves_unitRound.mp left
  split at told
  · exact Progress.unsettled.inj told ▸ steps
  · cases told

/-- A round that settles has set aside all units that remain. -/
theorem unitSteps_of_settled (left : (unitRound aside).Leaves g (.settled last) g') :
    UnitSteps g aside g.rules last g' ∧ ∀ rule ∈ g'.rules, rule.isUnit = true → rule ∈ last := by
  obtain ⟨_, steps, told⟩ := leaves_unitRound.mp left
  split at told
  · cases told
  · next all =>
    obtain rfl := Progress.settled.inj told
    refine ⟨steps, fun rule member unit => ?_⟩
    by_contra waiting
    exact all (List.any_eq_true.mpr ⟨rule, member, by simp [unit, waiting]⟩)

section Invariant

variable {I : List Rule → Grammar → Prop}
  (kept : ∀ g aside rule aside' g', I aside g → UnitStep g aside rule aside' g' → I aside' g')

include kept

theorem UnitSteps.keeps (steps : UnitSteps g aside rules last g') (initial : I aside g) :
    I last g' := by
  induction steps with
  | nil => exact initial
  | cons step _ ih => exact ih (kept _ _ _ _ _ initial step)

/-- Where the expansion of units succeeds, it ends with what every step keeps. -/
theorem expandUnits_invariant (initial : I [] g) (left : (expandUnits limits).Leaves g last g') :
    Admits limits.maxIterations ∧ g.hasShorthand = false ∧ I last g' ∧
      ∀ rule ∈ g'.rules, rule.isUnit = true → rule ∈ last := by
  obtain ⟨plain, worked⟩ := leaves_perform.mp left
  obtain ⟨admits, aside, before, held, round⟩ := exists_last_round (I := I)
    (fun _ _ _ _ held round => (unitSteps_of_unsettled round).keeps kept held) initial worked
  obtain ⟨steps, all⟩ := unitSteps_of_settled round
  exact ⟨admits, plain (by simp), steps.keeps kept held, all⟩

end Invariant

end Editing
end Ebnf
