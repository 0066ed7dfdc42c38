import Mathlib
import Ebnf.Proofs.Language.Preservation
import Ebnf.Proofs.Pass.Units

/-! The units that remain. What is set aside stays in the grammar, as only rules that are not set
aside are replaced. So when the expansion ends, exactly the units that remain are set aside. -/
namespace Ebnf

open Grammar

variable {g g' : Grammar} {events : List Event} {rule : Rule} {aside aside' : List Rule}
  {limits : Limits}

theorem Change.heads_eq_of_units (change : Change .units g events g') : g'.heads = g.heads := by
  cases change with
  | loops kinds | direct kinds => exact kinds.elim
  | unit member unit other lost defined => exact heads_expanded member defined

theorem Change.spells_iff_of_units (change : Change .units g events g') (n : Name)
    (w : List Terminal) : g'.Spells n w ↔ g.Spells n w := by
  cases change with
  | loops kinds | direct kinds => exact kinds.elim
  | unit member unit other => exact spells_unit member unit other

namespace Editing

/-- Each rule of a list is a unit of the grammar, and none is listed twice. -/
def SetAside (aside : List Rule) (g : Grammar) : Prop :=
  aside.Nodup ∧ ∀ rule ∈ aside, rule ∈ g.rules ∧ rule.isUnit = true

theorem SetAside.step (before : SetAside aside g) (step : UnitStep g aside rule aside' g') :
    SetAside aside' g' := by
  obtain ⟨apart, listed⟩ := before
  cases step with
  | expanded waiting =>
    refine ⟨apart, fun r inside => ⟨mem_replaced_of_ne (listed r inside).1 ?_, (listed r inside).2⟩⟩
    rintro rfl
    exact waiting inside
  | setAside waiting member unit =>
    refine ⟨by simpa using apart.concat waiting, fun r inside => ?_⟩
    rcases List.mem_append.mp inside with old | new
    · exact listed r old
    · obtain rfl := List.mem_singleton.mp new
      exact ⟨member, by simp [Rule.isUnit, unit]⟩
  | passed => exact ⟨apart, listed⟩

end Editing

/-- Where the expansion of units succeeds, its result lists the units that remain, each once. Such
a unit names its own head, or a non-terminal that has a rule which says no more than itself, or one
without rules. The heads are as they were, and every non-terminal spells the same words. -/
theorem Editing.expandUnits_remaining (ended : (expandUnits limits g).outcome = .ok aside) :
    let g' := (expandUnits limits g).grammar
    (aside.Nodup ∧ ∀ rule, rule ∈ aside ↔ rule ∈ g'.rules ∧ rule.isUnit = true) ∧
      (∀ rule ∈ g'.rules, ∀ target, rule.unit? = some target →
        rule.head = target ∨ selfLoop target ∈ g'.rules ∨ target ∉ g'.heads) ∧
      g'.heads = g.heads ∧ ∀ n w, g'.Spells n w ↔ g.Spells n w := by
  intro g'
  have left : (expandUnits limits).Leaves g aside g' := ⟨ended, rfl⟩
  have path : Path (· = .units) g _ g' := left.traced traced_expandUnits
  obtain ⟨_, _, ⟨apart, listed⟩, all⟩ := expandUnits_invariant
    (fun _ _ _ _ _ before step => SetAside.step before step) ⟨List.nodup_nil, by simp⟩ left
  obtain ⟨_, _, settled⟩ := expandUnits_leaves left
  refine ⟨⟨apart, fun rule => ⟨listed rule, fun ⟨member, unit⟩ => all rule member unit⟩⟩,
    fun rule member target unit => ?_, ?_, fun n w => ?_⟩
  · rw [eq_comm, ← settled_iff_of_unit unit]
    exact settled rule member target unit
  · refine path.invariant (I := (·.heads = g.heads)) (fun same change kept => ?_) rfl
    subst same
    exact change.heads_eq_of_units.trans kept
  · refine path.invariant (I := (·.Spells n w ↔ g.Spells n w)) (fun same change kept => ?_) Iff.rfl
    subst same
    exact (change.spells_iff_of_units n w).trans kept

/-- `river` and `brook` name each other, one of them twice, and nothing springs from `spring`. -/
def Grammar.meandering : Grammar :=
  let river : Name := ⟨"river", by decide⟩
  let brook : Name := ⟨"brook", by decide⟩
  .ofRules [⟨river, .nonTerminal brook, []⟩, ⟨river, .nonTerminal brook, []⟩,
    ⟨brook, .nonTerminal river, []⟩, ⟨brook, .terminal ⟨"a", none⟩, []⟩,
    ⟨river, .nonTerminal ⟨"spring", by decide⟩, []⟩] none

/-- Here a unit of each kind remains. -/
theorem Editing.expandUnits_meandering :
    let river : Name := ⟨"river", by decide⟩
    let aside : List Rule := [⟨⟨"brook", by decide⟩, .nonTerminal river, []⟩,
      ⟨river, .nonTerminal ⟨"spring", by decide⟩, []⟩, selfLoop river]
    let r := expandUnits (.ofCounts 2 1) meandering
    r.outcome = .ok aside ∧
      (aside.Nodup ∧ ∀ rule, rule ∈ aside ↔ rule ∈ r.grammar.rules ∧ rule.isUnit = true) ∧
      (∀ rule ∈ r.grammar.rules, ∀ target, rule.unit? = some target →
        rule.head = target ∨ selfLoop target ∈ r.grammar.rules ∨ target ∉ r.grammar.heads) ∧
      r.grammar.heads = meandering.heads ∧
        ∀ n w, r.grammar.Spells n w ↔ meandering.Spells n w := by
  intro river aside r
  have ended : r.outcome = .ok aside := by cbv
  exact ⟨ended, expandUnits_remaining ended⟩

end Ebnf
