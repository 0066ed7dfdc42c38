import Ebnf.Proofs.Editing.Heads
import Ebnf.Proofs.Pass.UnitSteps

/-! Units that are set aside stay settled. Whether a unit is settled is a matter of its target: the
target is the head itself, or has a rule that says no more than itself, or has no rules. The
expansion of other units changes none of this, so when a pass over the units ends, all that it has
set aside in any round are settled. -/
namespace Ebnf

namespace Grammar

variable {g : Grammar} {rule : Rule} {target : Name} {aside aside' : List Rule}

/-- The rule of a non-terminal that says no more than itself. -/
def selfLoop (name : Name) : Rule := ⟨name, .nonTerminal name, []⟩

theorem settled_iff_of_unit (unit : rule.unit? = some target) : g.Settled rule target ↔
    target = rule.head ∨ selfLoop target ∈ g.rules ∨ target ∉ g.heads := by
  rw [Settled, unitExpansion_eq_nil_iff]
  refine or_congr_right (or_congr_left ?_)
  obtain ⟨head, lead, rest⟩ := rule
  obtain ⟨rfl, rfl⟩ : rest = [] ∧ lead = .nonTerminal target := Rule.unit?_eq_some.mp unit
  simp only [unitExpansion, List.mem_map, mem_rulesOf]
  constructor
  · rintro ⟨⟨name, lead, rest⟩, ⟨member, named⟩, same⟩
    obtain ⟨rfl, rfl⟩ : lead = .nonTerminal target ∧ rest = [] := by simpa using same
    obtain rfl : name = target := named
    exact member
  · exact fun member => ⟨selfLoop target, ⟨member, rfl⟩, rfl⟩

/-- What a unit gives way to has its head, so the heads and their order stay. -/
theorem heads_expanded (member : rule ∈ g.rules) (defined : g.unitExpansion rule target ≠ []) :
    (g.replaced rule (g.unitExpansion rule target)).heads = g.heads := by
  apply heads_replaced member defined
  intro r new
  obtain ⟨_, _, rfl⟩ := List.mem_map.mp new
  rfl

/-- All units of a list are settled. -/
def SettledAside (g : Grammar) (aside : List Rule) : Prop :=
  ∀ rule ∈ aside, ∀ target, rule.unit? = some target → g.Settled rule target

theorem SettledAside.concat (settled : g.SettledAside aside) (unit : rule.unit? = some target)
    (here : g.Settled rule target) : g.SettledAside (aside ++ [rule]) := by
  intro r listed other named
  rcases List.mem_append.mp listed with old | new
  · exact settled r old other named
  · obtain rfl := List.mem_singleton.mp new
    obtain rfl : target = other := Option.some.inj (unit.symm.trans named)
    exact here

end Grammar

open Grammar

variable {g g' : Grammar} {events : List Event} {rule : Rule} {target : Name}
  {aside aside' last : List Rule} {limits : Limits}

theorem Change.settled (change : Change .units g events g') (unit : rule.unit? = some target)
    (settled : g.Settled rule target) : g'.Settled rule target := by
  rw [settled_iff_of_unit unit] at settled ⊢
  cases change with
  | loops kinds | direct kinds => exact kinds.elim
  | @unit _ expanded named member expands other lost defined =>
    refine settled.imp_right (Or.imp (fun loop => ?_) fun undefined => ?_)
    · refine mem_replaced_of_ne loop fun same => other ?_
      rw [← same] at expands
      exact (Option.some.inj (expands.symm.trans rfl)).trans (congrArg Rule.head same)
    · rwa [heads_expanded member defined]

theorem Grammar.SettledAside.along (settled : g.SettledAside aside)
    (path : Path (· = .units) g events g') : g'.SettledAside aside := by
  refine path.invariant (I := (·.SettledAside aside)) (fun same change settled => ?_) settled
  subst same
  exact fun rule listed target unit => change.settled unit (settled rule listed target unit)

namespace Editing

theorem settledAside_step (settled : g.SettledAside aside)
    (step : UnitStep g aside rule aside' g') : g'.SettledAside aside' := by
  have kept : g'.SettledAside aside :=
    settled.along ((leaves_expandIfUnit.mpr step).traced traced_expandIfUnit)
  cases step with
  | expanded => exact kept
  | setAside waiting member unit here => exact settled.concat unit here
  | passed => exact kept

/-- Where the expansion of units succeeds, the units that remain are settled. -/
theorem expandUnits_leaves (left : (expandUnits limits).Leaves g last g') :
    Admits limits.maxIterations ∧ g.hasShorthand = false ∧
      ∀ rule ∈ g'.rules, ∀ target, rule.unit? = some target → g'.Settled rule target := by
  obtain ⟨admits, plain, settled, all⟩ := expandUnits_invariant
    (I := fun aside g => g.SettledAside aside) (fun _ _ _ _ _ => settledAside_step)
    (by simp [SettledAside]) left
  refine ⟨admits, plain, fun rule member target unit => ?_⟩
  exact settled rule (all rule member (by simp [Rule.isUnit, unit])) target unit

theorem idempotent_expandUnits : (do let _ ← expandUnits limits : Editing Unit).Idempotent := by
  intro g g' left
  obtain ⟨last, g'', expanded, done⟩ := leaves_bind.mp left
  obtain rfl : g'' = g' := (leaves_pure.mp done).2
  obtain ⟨admits, plain, settled⟩ := expandUnits_leaves expanded
  have still : g''.hasShorthand = false := Path.invariant (expanded.traced traced_expandUnits)
    (fun same change => change.plain (by simp [same])) plain
  rw [quiet_bind traced_expandUnits]
  obtain ⟨again, quiet⟩ := quiet_expandUnits.mpr ⟨admits, still, settled⟩
  exact ⟨again, quiet, quiet_pure.mpr rfl⟩

end Editing
end Ebnf
