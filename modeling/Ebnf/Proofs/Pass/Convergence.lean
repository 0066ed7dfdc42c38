import Ebnf.Proofs.Editing.Quiet
import Ebnf.Proofs.Pass.Descent

/-! Removal of left recursion comes to an end on every grammar without ε, if its limits are large
enough. Each round takes the effort down, so after some number of rounds there is nothing left to
do, and the grammar has never been larger than one of those that the rounds pass through. -/
namespace Ebnf

open Grammar Editing

variable {g : Grammar} {heads : List Name}

/-- There is a number of rounds that is enough, and also a size that no grammar on the way goes
beyond. -/
theorem exists_rounds (founded : Founded heads g) :
    ∃ enough : Nat, ∀ exceeded rounds (size : Int), enough ≤ rounds → enough ≤ size →
      (settleWithin exceeded (progress (cycleRound (.int size))) rounds () g).outcome = .ok () := by
  induction left : g.effort heads using WellFoundedLT.induction generalizing g with
  | ind effort ih =>
    rcases run_cycleRound founded.plain with settled | ⟨events, g', resolution, unsettled⟩
    · refine ⟨1, ?_⟩
      intro exceeded rounds size admitted _
      obtain ⟨more, rfl⟩ := Nat.exists_eq_add_of_le' admitted
      exact settleWithin_of_settled (settled _)
    · have less : g'.effort heads < effort := left ▸ resolution.effort_lt founded
      obtain ⟨enough, ends⟩ := ih _ less (founded.resolve resolution) rfl
      refine ⟨max (enough + 1) g'.rules.length, ?_⟩
      intro exceeded rounds size admitted within
      obtain ⟨more, rfl⟩ : ∃ more, rounds = more + 1 := ⟨rounds - 1, by omega⟩
      rw [settleWithin_of_unsettled (unsettled size (by omega))]
      exact ends exceeded more size (by omega) (by omega)

/-- On a grammar without shorthand and ε in which every name heads a rule, removal of left
recursion succeeds with all limits from some number on. -/
theorem Pass.leftRecursion_converges (plain : g.hasShorthand = false) (defined : g.Defined)
    (visible : ∀ rule ∈ g.rules, .epsilon ∉ rule.body) :
    ∃ enough : Int, ∀ maxIterations maxGrowth : Int,
      enough ≤ maxIterations → enough ≤ maxGrowth →
        ((Pass.single .leftRecursion).run (.ofCounts maxIterations maxGrowth) g).outcome =
          .ok () := by
  obtain ⟨enough, ends⟩ := exists_rounds (.initial plain defined visible)
  refine ⟨enough, ?_⟩
  intro maxIterations maxGrowth rounds growth
  refine (outcome_perform plain).trans ?_
  unfold resolveCycles
  rw [run_current_bind]
  -- The size that is allowed is the growth a number of times, so it is not smaller.
  have size : (enough : Int) ≤ maxGrowth * (max g.rules.length 1 : Nat) := by
    have least : (1 : Int) ≤ (max g.rules.length 1 : Nat) := by omega
    calc (enough : Int)
      _ ≤ maxGrowth * 1 := by omega
      _ ≤ maxGrowth * (max g.rules.length 1 : Nat) :=
        Int.mul_le_mul_of_nonneg_left least (by omega)
  exact ends (.divergence (.single .leftRecursion) (.int maxIterations) .iterations)
    maxIterations.toNat _ (by omega) size

theorem Pass.leftRecursion_entwined : entwined.hasShorthand = false ∧ entwined.Defined ∧
    (∀ rule ∈ entwined.rules, .epsilon ∉ rule.body) ∧
      ∃ enough : Int, ∀ maxIterations maxGrowth : Int, enough ≤ maxIterations →
        enough ≤ maxGrowth → ((Pass.single .leftRecursion).run
          (.ofCounts maxIterations maxGrowth) entwined).outcome = .ok () := by
  have plain : entwined.hasShorthand = false := by decide
  have defined : entwined.Defined := by
    unfold Grammar.Defined
    decide
  have visible : ∀ rule ∈ entwined.rules, .epsilon ∉ rule.body := by
    simp [entwined, Grammar.ofRules, Rule.body]
  exact ⟨plain, defined, visible, Pass.leftRecursion_converges plain defined visible⟩

end Ebnf
