import Mathlib
import Ebnf.Proofs.Analysis.Problems
import Ebnf.Proofs.Editing.Failing
import Ebnf.Proofs.Editing.Quiet
import Ebnf.Proofs.Language.Closure
import Ebnf.Proofs.Pass.Resolution

/-! The ways in which passes fail. No pass asks the grammar for what it does not have: the rules
that it rewrites are there, and the cycles that it resolves are cycles. What is left is that it is
called on a grammar that is not ready for it, goes round too often, or refuses what came out. A
single round of direct left recursion removal also refuses heads that only begin with themselves,
and this is the one failure that a look at the grammar tells beforehand. -/
namespace Ebnf

/-- A failure that tells of the call, of its limits or of the grammar, and not of the work on it. -/
def Failure.IsForeseen : Failure → Prop
  | .misuse _ | .divergence .. | .rejection _ => True
  | .contradiction _ | .format _ | .settings _ | .fault _ => False

namespace Failure

theorem isForeseen_misuse (m : Misuse) : (misuse m).IsForeseen := trivial

theorem isForeseen_divergence (loop : Loop) (limit : Document) (ceiling : Ceiling) :
    (divergence loop limit ceiling).IsForeseen := trivial

/-- What a computation that only knows misuse fails with. -/
theorem isForeseen_of_mapError {α : Type} {x : Except Misuse α} {e : Failure}
    (failed : x.mapError misuse = .error e) : e.IsForeseen := by
  cases x with
  | ok a => simp [mapError_ok] at failed
  | error m =>
    obtain rfl : misuse m = e := by simpa [mapError_error] using failed
    exact isForeseen_misuse m

end Failure

namespace Editing

open Grammar Failure

variable {g : Grammar} {i j : Int}

/-! Shorthand, units, and rules that are not needed. -/

theorem failsWithin_expandRule {among : Failure → Prop} {rule : Rule} (member : rule ∈ g.rules) :
    (expandRule rule).FailsWithin among g := by
  cases found : g.expansionOf? rule with
  | none => exact failsWithin_of_ok (congrArg Run.outcome (run_expandRule_none found))
  | some expansion => exact failsWithin_of_ok (congrArg Run.outcome (run_expandRule member found))

theorem failsWithin_expandRound {among : Failure → Prop} : expandRound.FailsWithin among g := by
  refine failsWithin_current_bind ?_
  split
  · exact failsWithin_pure _
  · refine failsWithin_bind ?_ fun _ _ => failsWithin_pure _
    refine failsWithin_forM (fun rest g => rest.Subperm g.rules) (fun rule rest g listed => ?_)
      (List.Subperm.refl _)
    exact ⟨failsWithin_expandRule (listed.subset List.mem_cons_self), (expandRule_step listed).2⟩

theorem failsWithin_expandShorthand :
    (expandShorthand (.ofCounts i j)).FailsWithin IsForeseen g :=
  failsWithin_perform (isForeseen_misuse _)
    (failsWithin_repeatUntil (isForeseen_divergence _ _ _) fun _ => failsWithin_expandRound)

theorem failsWithin_expandIfUnit {among : Failure → Prop} {aside : List Rule} {rule : Rule} :
    (expandIfUnit aside rule).FailsWithin among g := by
  refine failsWithin_current_bind ?_
  split
  · next target _ =>
    split
    · next there =>
      refine failsWithin_current_bind ?_
      dsimp only
      split
      · exact failsWithin_of_ok rfl
      · split
        · exact failsWithin_of_ok rfl
        · split
          · exact failsWithin_pure _
          · refine failsWithin_of_ok (a := aside) ?_
            rw [run_replace_bind _ there.2]
            rfl
    · exact failsWithin_pure _
  · exact failsWithin_pure _

theorem failsWithin_unitRound {among : Failure → Prop} {aside : List Rule} :
    (unitRound aside).FailsWithin among g := by
  refine failsWithin_current_bind ?_
  refine failsWithin_bind (failsWithin_foldlM fun _ _ _ => failsWithin_expandIfUnit) fun _ _ => ?_
  exact failsWithin_current_bind (failsWithin_pure _)

theorem failsWithin_expandUnits : (expandUnits (.ofCounts i j)).FailsWithin IsForeseen g :=
  failsWithin_perform (isForeseen_misuse _)
    (failsWithin_settle (isForeseen_divergence _ _ _) fun _ _ => failsWithin_unitRound)

theorem failsWithin_removeDuplicates : removeDuplicates.FailsWithin IsForeseen g := by
  refine failsWithin_perform (isForeseen_misuse _) (failsWithin_of_ok (a := ()) ?_)
  unfold dropRepeated
  rw [run_current_bind, run_forM_commit_bind]
  rfl

theorem failsWithin_removeUnreachable : removeUnreachable.FailsWithin IsForeseen g := by
  refine failsWithin_perform (isForeseen_misuse _) (failsWithin_current_bind ?_)
  split
  · exact failsWithin_pure _
  · refine failsWithin_ofExcept_bind (fun _ => isForeseen_of_mapError) fun reached _ => ?_
    refine failsWithin_of_ok (a := ()) ?_
    rw [run_edit_bind, run_forM_commit_bind]
    split <;> rfl

/-! The start symbol. It heads a rule, so there is a first one. -/

theorem failsWithin_augmentStart : augmentStart.FailsWithin IsForeseen g := by
  refine failsWithin_perform (isForeseen_misuse _) (failsWithin_current_bind ?_)
  split
  · exact failsWithin_pure _
  · next some =>
    refine failsWithin_ofExcept_bind (fun _ => isForeseen_of_mapError) fun start started => ?_
    obtain ⟨_, headed⟩ := requireStart_eq_ok.mp (mapError_eq_ok.mp started)
    split
    · next none => exact absurd none (rulesOf_ne_nil.mpr (headed some))
    · split
      · exact failsWithin_remark _
      · exact failsWithin_of_ok rfl

/-! Shared leads. -/

theorem failsWithin_factorRound : factorRound.FailsWithin IsForeseen g := by
  refine failsWithin_current_bind ?_
  refine failsWithin_ofExcept_bind (fun _ => isForeseen_of_mapError) fun groups listed => ?_
  obtain ⟨_, rfl⟩ := leadGroups_eq_ok.mp (mapError_eq_ok.mp listed)
  split
  · exact failsWithin_pure _
  · refine failsWithin_bind ?_ fun _ _ => failsWithin_pure _
    refine failsWithin_forM Shared (fun group rest g shared => ?_) shared_leadGroups
    have run := run_factor (shared.2 group List.mem_cons_self)
    rw [run]
    exact ⟨failsWithin_of_ok (congrArg Run.outcome run), fun _ => shared.factored⟩

theorem failsWithin_factorSharedLeads :
    (factorSharedLeads (.ofCounts i j)).FailsWithin IsForeseen g :=
  failsWithin_perform (isForeseen_misuse _)
    (failsWithin_repeatUntil (isForeseen_divergence _ _ _) fun _ => failsWithin_factorRound)

/-! Left recursion. -/

theorem failsWithin_eliminateDirect {among : Failure → Prop} {kind : Transformation} {head : Name} :
    (eliminateDirect kind true head).FailsWithin among g := by
  by_cases recursive : g.leftRecursiveRulesOf head = []
  · exact failsWithin_of_ok (congrArg Run.outcome (run_eliminateDirect_nothing recursive))
  · by_cases based : g.baseRulesOf head = []
    · exact failsWithin_of_ok (congrArg Run.outcome (run_eliminateDirect_baseless based recursive))
    · obtain ⟨events, g', _, run⟩ : ∃ events g', Resolution g g' ∧
          eliminateDirect kind true head g = ⟨g', events, .ok ()⟩ :=
        run_eliminateDirect based recursive
      exact failsWithin_of_ok (congrArg Run.outcome run)

theorem failsWithin_removeDirectLeftRecursion :
    (removeDirectLeftRecursion (.ofCounts i j)).FailsWithin IsForeseen g := by
  refine failsWithin_perform (isForeseen_misuse _)
    (failsWithin_repeatUntil (isForeseen_divergence _ _ _) fun g => failsWithin_current_bind ?_)
  split
  · refine failsWithin_bind (failsWithin_current_bind ?_) fun _ _ => failsWithin_pure _
    exact failsWithin_forM (fun _ _ => True)
      (fun _ _ _ _ => ⟨failsWithin_eliminateDirect, fun _ => trivial⟩) trivial
  · exact failsWithin_pure _

theorem failsWithin_checkSize {size : Int} : (checkSize (.int size)).FailsWithin IsForeseen g := by
  refine failsWithin_current_bind ?_
  rw [exceededBy?_int]
  cases decide (size < g.rules.length) with
  | true => exact failsWithin_fail (isForeseen_divergence _ _ _)
  | false => exact failsWithin_pure _

/-- The search for cycles comes to a result if there is no shorthand. -/
theorem failsWithin_cycleRound {size : Int} :
    (cycleRound (.int size)).FailsWithin IsForeseen g := by
  refine failsWithin_current_bind ?_
  cases shorthand : g.hasShorthand with
  | true =>
    have failed : g.leftRecursionCycles = .error (.misuse .shorthandLeft) := by
      simp [leftRecursionCycles, requirePlain, shorthand, mapError_error, bind, Except.bind]
    rw [failed]
    exact failsWithin_fail (isForeseen_misuse _)
  | false =>
    obtain ⟨cycles, listed, paths, sound⟩ := leftRecursionCycles_ok shorthand
    rw [listed]
    refine failsWithin_ofExcept_bind (fun _ failed => by cases failed) ?_
    rintro _ ⟨⟩
    cases kept : cycles.filter fun c => g.hasBaseCase c.root with
    | nil => exact failsWithin_pure _
    | cons first others =>
      obtain ⟨_, _, _, run⟩ := run_breakCycle paths (fun c known => (sound c known).1) kept
      refine failsWithin_bind (failsWithin_of_ok (congrArg Run.outcome run)) fun _ _ => ?_
      exact failsWithin_bind failsWithin_checkSize fun _ _ => failsWithin_pure _

theorem failsWithin_removeLeftRecursion :
    (removeLeftRecursion (.ofCounts i j)).FailsWithin IsForeseen g :=
  failsWithin_perform (isForeseen_misuse _) <| failsWithin_current_bind <|
    failsWithin_repeatUntil (isForeseen_divergence _ _ _) fun _ => failsWithin_cycleRound

/-! Composite passes. -/

theorem failsWithin_stage {among : Failure → Prop} {pass : Pass} {work : Editing Unit}
    (h : work.FailsWithin among g) : (stage pass work).FailsWithin among g :=
  failsWithin_bind (failsWithin_recorded h) fun _ _ => failsWithin_remark _

theorem failsWithin_untilQuiet {pass : Pass} {work : Editing Unit}
    (h : ∀ g, work.FailsWithin IsForeseen g) :
    (untilQuiet pass (.ofCounts i j) work).FailsWithin IsForeseen g :=
  failsWithin_repeatUntil (isForeseen_divergence _ _ _) fun g =>
    failsWithin_bind (failsWithin_recorded (h g)) fun _ _ => failsWithin_pure _

theorem failsWithin_finish {among : Failure → Prop} {pass : Pass} {work : Editing Unit}
    (h : work.FailsWithin among g) : (finish pass work).FailsWithin among g :=
  failsWithin_bind (failsWithin_recorded h) fun _ _ =>
    failsWithin_current_bind (failsWithin_remark _)

theorem failsWithin_rejectIfAny {problems : List Diagnostic} :
    (rejectIfAny problems).FailsWithin IsForeseen g := by
  unfold rejectIfAny
  split
  · exact failsWithin_pure _
  · exact failsWithin_fail trivial

theorem failsWithin_clean : (clean (.ofCounts i j)).FailsWithin IsForeseen g := by
  refine failsWithin_bind (failsWithin_stage failsWithin_expandShorthand) fun _ _ => ?_
  refine failsWithin_bind (failsWithin_stage failsWithin_removeUnreachable) fun _ _ => ?_
  refine failsWithin_bind (failsWithin_stage ?_) fun _ _ => ?_
  · exact failsWithin_bind failsWithin_expandUnits fun _ _ => failsWithin_pure _
  refine failsWithin_bind (failsWithin_stage failsWithin_removeDuplicates) fun _ _ => ?_
  exact failsWithin_stage failsWithin_removeUnreachable

/-- The checks of a grammar only fail where it has shorthand or no start symbol. -/
theorem isForeseen_of_problems {e : Failure} (failed : g.problems = .error e) : e.IsForeseen := by
  have some : g.rules ≠ [] := by
    intro empty
    simp [problems, empty, pure, Except.pure] at failed
  cases search : g.reachable with
  | ok reached =>
    obtain ⟨plain, start, started, _⟩ := reachable_eq_ok search
    obtain ⟨_, _, _, _, _, _, found⟩ := problems_ok plain some started
    cases failed.symm.trans found
  | error m =>
    have unreachable : g.unreachableProblems = .error m := by
      simp [unreachableProblems, unreachableRules, unreachable, search, bind, Except.bind]
    rw [problems, if_neg some, unreachable] at failed
    cases first : g.unrealizableProblems with
    | ok found =>
      obtain rfl : Failure.misuse m = e := by
        simpa [first, mapError_ok, mapError_error, bind, Except.bind] using failed
      exact isForeseen_misuse m
    | error m' =>
      obtain rfl : Failure.misuse m' = e := by
        simpa [first, mapError_error, bind, Except.bind] using failed
      exact isForeseen_misuse m'

theorem failsWithin_fix : (fix (.ofCounts i j)).FailsWithin IsForeseen g := by
  refine failsWithin_bind (failsWithin_stage failsWithin_removeLeftRecursion) fun _ _ => ?_
  refine failsWithin_bind (failsWithin_stage failsWithin_factorSharedLeads) fun _ _ => ?_
  refine failsWithin_bind (failsWithin_stage failsWithin_removeUnreachable) fun _ _ => ?_
  refine failsWithin_current_bind ?_
  refine failsWithin_ofExcept_bind (fun _ => isForeseen_of_problems) fun problems _ => ?_
  refine failsWithin_bind ?_ fun _ _ => failsWithin_rejectIfAny
  exact failsWithin_forM (fun _ _ => True)
    (fun _ _ _ _ => ⟨failsWithin_remark _, fun _ => trivial⟩) trivial

theorem failsWithin_normalize : (normalize (.ofCounts i j)).FailsWithin IsForeseen g := by
  refine failsWithin_finish (failsWithin_untilQuiet fun g => ?_)
  refine failsWithin_bind (failsWithin_stage ?_) fun _ _ => failsWithin_stage ?_
  · exact failsWithin_untilQuiet fun _ => failsWithin_clean
  · exact failsWithin_untilQuiet fun _ => failsWithin_fix

theorem failsWithin_prepareLR1 : (prepareLR1 (.ofCounts i j)).FailsWithin IsForeseen g := by
  refine failsWithin_finish ?_
  refine failsWithin_bind (failsWithin_stage failsWithin_expandShorthand) fun _ _ => ?_
  refine failsWithin_bind (failsWithin_stage failsWithin_augmentStart) fun _ _ => ?_
  refine failsWithin_current_bind ?_
  exact failsWithin_ofExcept_bind (fun _ => isForeseen_of_mapError) fun _ _ =>
    failsWithin_rejectIfAny

end Editing

/-- No pass but a single round of direct left recursion removal fails otherwise. -/
theorem Pass.failsWithin_program (pass : Pass) (i j : Int) {g : Grammar}
    (other : pass ≠ .single .leftRecursionRound) :
    (pass.program (.ofCounts i j)).FailsWithin Failure.IsForeseen g := by
  cases pass with
  | single kind =>
    cases kind with
    | shorthand => exact Editing.failsWithin_expandShorthand
    | leftRecursion => exact Editing.failsWithin_removeLeftRecursion
    | leftRecursionRound => exact absurd rfl other
    | directLeftRecursion => exact Editing.failsWithin_removeDirectLeftRecursion
    | sharedLeads => exact Editing.failsWithin_factorSharedLeads
    | unreachable => exact Editing.failsWithin_removeUnreachable
    | units =>
      exact Editing.failsWithin_bind Editing.failsWithin_expandUnits fun _ _ =>
        Editing.failsWithin_pure _
    | duplicates => exact Editing.failsWithin_removeDuplicates
    | augmentation => exact Editing.failsWithin_augmentStart
  | clean => exact Editing.failsWithin_clean
  | cleanUntilQuiet => exact Editing.failsWithin_untilQuiet fun _ => Editing.failsWithin_clean
  | fix => exact Editing.failsWithin_fix
  | fixUntilQuiet => exact Editing.failsWithin_untilQuiet fun _ => Editing.failsWithin_fix
  | normalize => exact Editing.failsWithin_normalize
  | prepareLR1 => exact Editing.failsWithin_prepareLR1

/-! The round of direct left recursion removal that goes over every head once. -/

namespace Grammar

variable {g : Grammar} {head : Name}

/-- What is done to one head leaves the others as they were. -/
theorem hasBaseCase_withRulesOf {name : Name} {rules : List Rule} (other : name ≠ head)
    (foreign : ∀ r ∈ rules, r.head ≠ name) :
    (g.withRulesOf head rules).hasBaseCase name = g.hasBaseCase name := by
  have same (r : Rule) : r ∈ (g.withRulesOf head rules).baseRulesOf name ↔
      r ∈ g.baseRulesOf name := by
    rw [mem_baseRulesOf, mem_baseRulesOf, mem_withRulesOf]
    constructor
    · rintro ⟨⟨new | ⟨old, _⟩, named⟩, base⟩
      · exact absurd named (foreign r new)
      · exact ⟨⟨old, named⟩, base⟩
    · rintro ⟨⟨old, rfl⟩, base⟩
      exact ⟨⟨.inr ⟨old, other⟩, rfl⟩, base⟩
  rw [Bool.eq_iff_iff, hasBaseCase_iff, hasBaseCase_iff, Ne, Ne, List.eq_nil_iff_forall_not_mem,
    List.eq_nil_iff_forall_not_mem]
  simp only [same]

end Grammar

namespace Editing

open Grammar Failure

variable {g : Grammar} {kind : Transformation} {head : Name}

theorem run_eliminateDirect_of_hasBaseCase {allow : Bool} (based : g.hasBaseCase head = true) :
    ∃ events g', eliminateDirect kind allow head g = ⟨g', events, .ok ()⟩ ∧
      ∀ name ∈ g.heads, name ≠ head →
        name ∈ g'.heads ∧ g'.hasBaseCase name = g.hasBaseCase name := by
  have base : g.baseRulesOf head ≠ [] := hasBaseCase_iff.mp based
  have headed {rules : List Rule} {name : Name} (listed : name ∈ g.heads) (other : name ≠ head) :
      name ∈ (g.withRulesOf head rules).heads := by
    obtain ⟨rule, member, rfl⟩ := mem_heads.mp listed
    exact head_mem_heads (mem_withRulesOf.mpr (.inr ⟨member, other⟩))
  by_cases recursive : g.leftRecursiveRulesOf head = []
  · exact ⟨[], g, run_eliminateDirect_nothing recursive, fun name listed _ => ⟨listed, rfl⟩⟩
  · rw [run_eliminateDirect_based base recursive]
    by_cases nothing : (g.directRecursion head).recursive = []
    · refine ⟨_, _, run_removeDirect_loops nothing, fun name listed other => ?_⟩
      refine ⟨headed listed other, ?_⟩
      refine hasBaseCase_withRulesOf other fun r new same => other ?_
      rw [← same, (mem_baseRulesOf.mp new).1.2]
    · refine ⟨_, _, run_removeDirect nothing, fun name listed other => ⟨headed listed other, ?_⟩⟩
      refine hasBaseCase_withRulesOf other fun r new same => ?_
      rcases head_of_mem_directRecursion new with old | fresh
      · exact other (same ▸ old)
      · exact continuation_notMem_heads (fresh ▸ same ▸ listed)

/-- Heads are treated in turn up to the first that has no other alternative, and what is done to one
does not give another what it lacks. -/
theorem outcome_eliminateDirects {heads : List Name} (apart : heads.Nodup)
    (there : ∀ head ∈ heads, head ∈ g.heads) :
    (heads.forM (eliminateDirect kind false) g).outcome = .ok () ∧
        (∀ head ∈ heads, g.hasBaseCase head = true) ∨
      ∃ head ∈ heads, g.hasBaseCase head = false ∧
        (heads.forM (eliminateDirect kind false) g).outcome =
          .error (.contradiction (.onlyLeftRecursive head)) := by
  induction heads generalizing g with
  | nil => exact .inl ⟨rfl, by simp⟩
  | cons head heads ih =>
    obtain ⟨new, apart⟩ := List.nodup_cons.mp apart
    cases based : g.hasBaseCase head with
    | false =>
      refine .inr ⟨head, List.mem_cons_self, based, ?_⟩
      have base : g.baseRulesOf head = [] := by
        by_contra some
        exact absurd (hasBaseCase_iff.mpr some) (by simp [based])
      have recursive : g.leftRecursiveRulesOf head ≠ [] := by
        obtain ⟨rule, member, same⟩ := mem_heads.mp (there head List.mem_cons_self)
        refine List.ne_nil_of_mem (a := rule) (mem_leftRecursiveRulesOf.mpr ⟨⟨member, same⟩, ?_⟩)
        by_contra other
        have listed : rule ∈ g.baseRulesOf head :=
          mem_baseRulesOf.mpr ⟨⟨member, same⟩, by simpa using other⟩
        simp [base] at listed
      have failed : eliminateDirect kind false head g =
          ⟨g, [], .error (.contradiction (.onlyLeftRecursive head))⟩ :=
        run_eliminateDirect_baseless base recursive
      rw [run_forM_cons, run_bind_error (congrArg Run.outcome failed)]
    | true =>
      obtain ⟨events, g', run, kept⟩ := run_eliminateDirect_of_hasBaseCase based
      have same (name : Name) (later : name ∈ heads) :
          name ∈ g'.heads ∧ g'.hasBaseCase name = g.hasBaseCase name :=
        kept name (there name (List.mem_cons_of_mem _ later)) fun again => new (again ▸ later)
      have rest : ((head :: heads).forM (eliminateDirect kind false) g).outcome =
          (heads.forM (eliminateDirect kind false) g').outcome := by
        rw [run_forM_cons, run_bind_ok (congrArg Run.outcome run), run]
        rfl
      rw [rest]
      rcases ih apart fun name later => (same name later).1 with
        ⟨ended, all⟩ | ⟨name, later, lacks, failed⟩
      · refine .inl ⟨ended, ?_⟩
        rintro name (_ | ⟨_, later⟩)
        · exact based
        · exact (same name later).2 ▸ all name later
      · exact .inr ⟨name, List.mem_cons_of_mem _ later, (same name later).2 ▸ lacks, failed⟩

/-- The round refuses the first head that has no other alternative, and succeeds if there is
none. -/
theorem outcome_eliminateDirectOnce :
    (eliminateDirectOnce kind false g).outcome = .ok () ∧
        (∀ head ∈ g.heads, g.hasBaseCase head = true) ∨
      ∃ head ∈ g.heads, g.hasBaseCase head = false ∧
        (eliminateDirectOnce kind false g).outcome =
          .error (.contradiction (.onlyLeftRecursive head)) :=
  outcome_eliminateDirects nodup_heads fun _ listed => listed

theorem failsWithin_leftRecursionRound :
    leftRecursionRound.FailsWithin (fun e => e.IsForeseen ∨ ∃ c, e = .contradiction c) g := by
  refine failsWithin_perform (.inl (isForeseen_misuse _)) fun e failed => ?_
  rcases outcome_eliminateDirectOnce with ⟨ended, _⟩ | ⟨head, _, _, refused⟩
  · cases failed.symm.trans ended
  · cases failed.symm.trans refused
    exact .inr ⟨_, rfl⟩

theorem leftRecursionRound_contradicts (plain : g.hasShorthand = false) :
    (∃ c, (leftRecursionRound g).outcome = .error (.contradiction c)) ↔
      ∃ head ∈ g.heads, g.hasBaseCase head = false := by
  rw [leftRecursionRound, outcome_perform plain]
  rcases outcome_eliminateDirectOnce with ⟨ended, all⟩ | ⟨head, headed, lacks, refused⟩
  · rw [ended]
    constructor
    · rintro ⟨_, ⟨⟩⟩
    · rintro ⟨head, headed, lacks⟩
      simp [all head headed] at lacks
  · rw [refused]
    exact ⟨fun _ => ⟨head, headed, lacks⟩, fun _ => ⟨_, rfl⟩⟩

end Editing

open Grammar

/-- A pass whose limits are whole numbers either succeeds or fails in a way that is foreseen. The
exception is a single round of direct left recursion removal. On a grammar without shorthand it
meets a contradiction if and only if all alternatives of some head begin with that head. -/
theorem Pass.run_foreseen (pass : Pass) (i j : Int) (g : Grammar) :
    (∀ e, (pass.run (.ofCounts i j) g).outcome = .error e →
      e.IsForeseen ∨ pass = .single .leftRecursionRound ∧ ∃ c, e = .contradiction c) ∧
    (g.hasShorthand = false →
      ((∃ c, ((Pass.single .leftRecursionRound).run (.ofCounts i j) g).outcome =
          .error (.contradiction c)) ↔
        ∃ head ∈ g.heads, ∀ rule ∈ g.rulesOf head, rule.lead = .nonTerminal head)) := by
  refine ⟨fun e failed => ?_, fun plain => ?_⟩
  · by_cases round : pass = .single .leftRecursionRound
    · subst round
      exact (Editing.failsWithin_leftRecursionRound e failed).imp_right fun met => ⟨rfl, met⟩
    · exact .inl (pass.failsWithin_program i j round e failed)
  · refine (Editing.leftRecursionRound_contradicts plain).trans ?_
    refine exists_congr fun head => and_congr_right fun _ => ?_
    rw [hasBaseCase, List.any_eq_false]
    refine forall₂_congr fun rule listed => ?_
    rw [Bool.not_eq_true', Bool.not_eq_false, Rule.isLeftRecursive_iff, (mem_rulesOf.mp listed).2]

/-- `K → a` and `J → J b`. -/
def Grammar.barren : Grammar :=
  .ofRules [⟨⟨"K", by decide⟩, .terminal ⟨"a", none⟩, []⟩,
    ⟨⟨"J", by decide⟩, .nonTerminal ⟨"J", by decide⟩, [.terminal ⟨"b", none⟩]⟩] none

theorem Pass.leftRecursionRound_barren :
    let failure := Failure.contradiction (.onlyLeftRecursive ⟨"J", by decide⟩)
    let round := Pass.single .leftRecursionRound
    ((round.run (.ofCounts 1 1) barren).outcome = .error failure ∧ barren.hasShorthand = false) ∧
      (failure.IsForeseen ∨ round = .single .leftRecursionRound ∧
        ∃ c, failure = .contradiction c) ∧
      ∃ head ∈ barren.heads, ∀ rule ∈ barren.rulesOf head, rule.lead = .nonTerminal head := by
  intro failure round
  have failed : (round.run (.ofCounts 1 1) barren).outcome = .error failure := by cbv
  have plain : barren.hasShorthand = false := by decide
  obtain ⟨foreseen, refused⟩ := Pass.run_foreseen round 1 1 barren
  exact ⟨⟨failed, plain⟩, foreseen failure failed, (refused plain).mp ⟨_, failed⟩⟩

end Ebnf
