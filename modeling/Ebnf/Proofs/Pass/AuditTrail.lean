import Mathlib
import Ebnf.Pass.Orders
import Ebnf.Proofs.Editing.Quiet
import Ebnf.Proofs.Editing.Replay
import Ebnf.Proofs.Pass.Traces

/-! The audit trail is complete. The records of a transformation lead from the rules it found to
those it leaves, and a composite pass has no records but those of the transformations it runs. -/
namespace Ebnf

open Computability

variable {limits : Limits} {g g' g'' : Grammar} {kinds kinds' : List Transformation}
  {records records' : List Record} {orders orders' : Language Transformation}

theorem InTurn.append (first : InTurn limits g kinds records g')
    (second : InTurn limits g' kinds' records' g'') :
    InTurn limits g (kinds ++ kinds') (records ++ records') g'' := by
  induction first with
  | nil => exact second
  | cons ended _ ih => rw [List.append_assoc]; exact .cons ended (ih second)

/-- A path without changes leads nowhere and has no records. -/
theorem Path.of_nothing {events : List Event} (path : Path (fun _ => False) g events g') :
    g' = g ∧ events.filterMap Event.record? = [] := by
  induction path with
  | refl => exact ⟨rfl, rfl⟩
  | remark _ _ ih => exact ⟨ih.1, by simpa using ih.2⟩
  | next kinds => exact kinds.elim

namespace Editing

variable {α β : Type}

/-- A program is composed if whenever it succeeds it comes to transformations run in one of some
orders. -/
def Composed (limits : Limits) (orders : Language Transformation) (x : Editing α) : Prop :=
  ∀ g a, (x g).outcome = .ok a →
    ∃ kinds ∈ orders, InTurn limits g kinds (x g).records (x g).grammar

theorem composed_single (kind : Transformation) :
    Composed limits {[kind]} ((Pass.single kind).program limits) := by
  intro g a ended
  refine ⟨[kind], rfl, ?_⟩
  have alone : InTurn limits g [kind] (((Pass.single kind).run limits g).records ++ [])
      ((Pass.single kind).run limits g).grammar := .cons ended (.nil _)
  rwa [List.append_nil] at alone

theorem composed_nothing {x : Editing α} (traced : ∀ g, x.Traced (fun _ => False) g) :
    Composed limits 1 x := by
  intro g a _
  obtain ⟨same, silent⟩ := Path.of_nothing (traced g)
  have records : (x g).records = [] := silent
  rw [records, same]
  exact ⟨[], Language.nil_mem_one, .nil g⟩

theorem composed_bind {x : Editing α} {f : α → Editing β} (first : Composed limits orders x)
    (second : ∀ a, Composed limits orders' (f a)) :
    Composed limits (orders * orders') (x >>= f) := by
  intro g b ended
  obtain ⟨a, here, rest⟩ := outcome_bind_ok ended
  obtain ⟨kinds, listed, before⟩ := first g a here
  obtain ⟨kinds', listed', after⟩ := second a (x g).grammar b rest
  rw [run_bind_ok here, Run.records_after]
  exact ⟨kinds ++ kinds', Language.append_mem_mul listed listed', before.append after⟩

/-- What only tells something does not count. -/
theorem composed_bind_nothing {x : Editing α} {f : α → Editing β} (first : Composed limits orders x)
    (second : ∀ a g, (f a).Traced (fun _ => False) g) : Composed limits orders (x >>= f) := by
  have both : Composed limits (orders * 1) (x >>= f) :=
    composed_bind first fun a => composed_nothing (second a)
  rwa [mul_one] at both

theorem composed_recorded {x : Editing α} (composed : Composed limits orders x) :
    Composed limits orders x.recorded := fun g done ended =>
  composed g done.1 (recorded_eq_ok.mp ended).1

theorem composed_stage {pass : Pass} {work : Editing Unit}
    (composed : Composed limits orders work) : Composed limits orders (stage pass work) :=
  composed_bind_nothing (composed_recorded composed) fun _ _ => traced_remark _

theorem composed_finish {pass : Pass} {work : Editing Unit}
    (composed : Composed limits orders work) : Composed limits orders (finish pass work) :=
  composed_bind_nothing (composed_recorded composed) fun _ _ =>
    traced_current_bind (traced_remark _)

/-- A loop that is left has gone round at least once. -/
theorem composed_settleWithin {σ : Type} {e : Failure} {step : σ → Editing (Progress σ)}
    (composed : ∀ s, Composed limits orders (step s)) (rounds : Nat) (s : σ) :
    Composed limits (orders * orders∗) (settleWithin e step rounds s) := by
  induction rounds generalizing s with
  | zero =>
    intro g a ended
    cases ended
  | succ rounds ih =>
    refine composed_bind (composed s) fun progress => ?_
    intro g a ended
    cases progress with
    | settled s' => exact ⟨[], Language.nil_mem_kstar _, .nil g⟩
    | unsettled s' =>
      obtain ⟨kinds, listed, turn⟩ := ih s' g a ended
      refine ⟨kinds, ?_, turn⟩
      rw [← Language.one_add_self_mul_kstar_eq_kstar]
      exact (Language.mem_add _ _ _).mpr (.inr listed)

theorem composed_untilQuiet {pass : Pass} {work : Editing Unit}
    (composed : Composed limits orders work) :
    Composed limits (orders * orders∗) (untilQuiet pass limits work) := by
  have step : Composed limits orders (do
      let done ← recorded work
      return done.2 = [] : Editing Bool) :=
    composed_bind_nothing (composed_recorded composed) fun _ _ => traced_pure _
  unfold untilQuiet repeatUntil settle
  split
  · refine composed_settleWithin (fun _ => composed_bind_nothing step fun settled _ => ?_) _ _
    cases settled <;> exact traced_pure _
  · intro g a ended
    cases ended

theorem singleton_mul (kind : Transformation) (kinds : List Transformation) :
    ({[kind]} * {kinds} : Language Transformation) = {kind :: kinds} := by
  refine Language.ext fun order => Language.mem_mul.trans ⟨?_, ?_⟩
  · rintro ⟨_, rfl, _, rfl, rfl⟩
    rfl
  · rintro rfl
    exact ⟨[kind], rfl, kinds, rfl, rfl⟩

theorem composed_clean : Composed limits Pass.cleaning (clean limits) := by
  have stages : Composed limits ({[.shorthand]} * ({[.unreachable]} * ({[.units]} *
      ({[.duplicates]} * {[.unreachable]})))) (clean limits) :=
    composed_bind (composed_stage (composed_single .shorthand)) fun _ =>
    composed_bind (composed_stage (composed_single .unreachable)) fun _ =>
    composed_bind (composed_stage (composed_single .units)) fun _ =>
    composed_bind (composed_stage (composed_single .duplicates)) fun _ =>
    composed_stage (composed_single .unreachable)
  rwa [singleton_mul, singleton_mul, singleton_mul, singleton_mul] at stages

theorem composed_fix : Composed limits Pass.fixing (fix limits) := by
  have checked (g : Grammar) : (do
      let g ← current
      let problems ← ofExcept g.problems
      problems.forM (fun problem => remark (.problem problem))
      rejectIfAny problems : Editing Unit).Traced (fun _ => False) g :=
    traced_current_bind <| traced_bind (traced_ofExcept _) fun _ _ =>
      traced_bind traced_forM_remark fun _ _ => traced_rejectIfAny
  have stages : Composed limits ({[.leftRecursion]} * ({[.sharedLeads]} * {[.unreachable]}))
      (fix limits) :=
    composed_bind (composed_stage (composed_single .leftRecursion)) fun _ =>
    composed_bind (composed_stage (composed_single .sharedLeads)) fun _ =>
    composed_bind_nothing (composed_stage (composed_single .unreachable)) fun _ => checked
  rwa [singleton_mul, singleton_mul] at stages

theorem composed_prepareLR1 :
    Composed limits {[.shorthand, .augmentation]} (prepareLR1 limits) := by
  have checked (g : Grammar) : (do
      let g ← current
      let problems ← ofExcept (g.lr1Problems.mapError .misuse)
      rejectIfAny problems : Editing Unit).Traced (fun _ => False) g :=
    traced_current_bind <| traced_bind (traced_ofExcept _) fun _ _ => traced_rejectIfAny
  have stages : Composed limits ({[.shorthand]} * {[.augmentation]}) (prepareLR1 limits) :=
    composed_finish <| composed_bind (composed_stage (composed_single .shorthand)) fun _ =>
      composed_bind_nothing (composed_stage (composed_single .augmentation)) fun _ => checked
  rwa [singleton_mul] at stages

end Editing

open Editing

theorem Pass.composed (pass : Pass) (limits : Limits) :
    Composed limits pass.orders (pass.program limits) := by
  cases pass with
  | single kind => exact composed_single kind
  | clean => exact composed_clean
  | cleanUntilQuiet => exact composed_untilQuiet composed_clean
  | fix => exact composed_fix
  | fixUntilQuiet => exact composed_untilQuiet composed_fix
  | normalize =>
    exact composed_finish <| composed_untilQuiet <|
      composed_bind (composed_stage (composed_untilQuiet composed_clean)) fun _ =>
        composed_stage (composed_untilQuiet composed_fix)
  | prepareLR1 => exact composed_prepareLR1

/-- The records of a transformation can be replayed on the rules it is run on, in any order of
these, and lead to the rules it leaves; without records it leaves the grammar as it is. A pass that
succeeds has run transformations in one of its orders, and its records are theirs. -/
theorem Pass.records_replay (limits : Limits) (g : Grammar) :
    (∀ kind, let r := (Pass.single kind).run limits g
      replay kind [] r.records g.rules = some (r.grammar.rules : Multiset Rule) ∧
        (r.records = [] → r.grammar = g)) ∧
      ∀ pass : Pass, (pass.run limits g).outcome = .ok () → ∃ kinds ∈ pass.orders,
        InTurn limits g kinds (pass.run limits g).records (pass.run limits g).grammar := by
  refine ⟨fun kind => ?_, fun pass ended => pass.composed limits g () ended⟩
  have path : Path (· = kind) g ((Pass.single kind).run limits g).events
      ((Pass.single kind).run limits g).grammar := traced_single kind
  exact ⟨path.replay (by simp), path.eq_of_no_records⟩

/-- `R → a b` twice and `R → a c`. -/
def Grammar.repeating : Grammar :=
  let rule (last : String) : Rule :=
    ⟨⟨"R", by decide⟩, .terminal ⟨"a", none⟩, [.terminal ⟨last, none⟩]⟩
  .ofRules [rule "b", rule "b", rule "c"] none

theorem Pass.records_repeating :
    let r := Pass.normalize.run (.ofCounts 4 4) Grammar.repeating
    r.outcome = .ok () ∧ r.records.length = 3 ∧
      ∃ kinds ∈ Pass.normalize.orders,
        InTurn (.ofCounts 4 4) Grammar.repeating kinds r.records r.grammar := by
  have ended : (Pass.normalize.run (.ofCounts 4 4) Grammar.repeating).outcome = .ok () := by cbv
  exact ⟨ended, by cbv, (Pass.records_replay _ _).2 _ ended⟩

end Ebnf
