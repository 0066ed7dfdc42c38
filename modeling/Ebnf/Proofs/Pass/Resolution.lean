import Ebnf.Proofs.Pass.Shortening
import Ebnf.Proofs.Pass.Traces

/-! What a round of the resolution of cycles does. It removes the direct left recursion of a head
that has another alternative. If there is none, it puts the alternatives of the first active head
into a rule that closes a cycle there. -/
namespace Ebnf

open Grammar Editing

variable {g g' : Grammar}

/-- `Resolution g g'` says that a round that does not settle turns `g` into `g'`. -/
inductive Resolution (g : Grammar) : Grammar → Prop where
  | loops {head} (based : g.baseRulesOf head ≠ []) (recursive : g.leftRecursiveRulesOf head ≠ [])
      (nothing : (g.directRecursion head).recursive = []) :
      Resolution g (g.withRulesOf head (g.baseRulesOf head))
  | direct {head} (based : g.baseRulesOf head ≠ [])
      (recursive : (g.directRecursion head).recursive ≠ []) :
      Resolution g (g.withRulesOf head ((g.directRecursion head).rules (g.continuation head)))
  | substitution {root rule} (shortening : Shortening g root rule) :
      Resolution g (g.replaced rule (g.substitution root rule))

theorem Resolution.change (resolution : Resolution g g') :
    ∃ events, Change .leftRecursion g events g' := by
  cases resolution with
  | loops based recursive nothing => exact ⟨_, .loops trivial based recursive nothing⟩
  | direct based recursive => exact ⟨_, .direct trivial based recursive⟩
  | substitution shortening =>
    exact ⟨_, .substitution shortening.member shortening.closes shortening.indirect
      shortening.defined⟩

theorem exceededBy?_int (size : Int) (count : Nat) :
    (Document.int size).exceededBy? count = some (decide (size < count)) := by
  change some (decide (size * Int.pow 2 0 < count * Int.pow 2 0)) = _
  have one : Int.pow 2 0 = 1 := rfl
  rw [one, Int.mul_one, Int.mul_one]

namespace Editing

theorem run_checkSize {size : Int} (within : g.rules.length ≤ size) :
    checkSize (.int size) g = ⟨g, [], .ok ()⟩ := by
  unfold checkSize
  rw [run_current_bind, exceededBy?_int, decide_eq_false (Int.not_lt.mpr within)]
  rfl

section Direct

variable {kind : Transformation} {allow : Bool} {head : Name}

theorem run_eliminateDirect_nothing (nothing : g.leftRecursiveRulesOf head = []) :
    eliminateDirect kind allow head g = ⟨g, [], .ok ()⟩ := by
  unfold eliminateDirect
  rw [run_current_bind]
  simp only [if_pos nothing]
  rfl

theorem run_eliminateDirect_baseless (baseless : g.baseRulesOf head = [])
    (recursive : g.leftRecursiveRulesOf head ≠ []) : eliminateDirect kind allow head g =
      if allow then remark (.onlyLeftRecursive head) g
      else fail (.contradiction (.onlyLeftRecursive head)) g := by
  unfold eliminateDirect
  rw [run_current_bind]
  simp only [if_neg recursive, if_neg (not_not.mpr baseless)]
  split <;> rfl

theorem run_eliminateDirect_based (based : g.baseRulesOf head ≠ [])
    (recursive : g.leftRecursiveRulesOf head ≠ []) : eliminateDirect kind allow head g =
      removeDirect kind head (g.baseRulesOf head) (g.leftRecursiveRulesOf head) g := by
  unfold eliminateDirect
  rw [run_current_bind]
  simp only [if_neg recursive, if_pos based]

theorem run_eliminateDirect (based : g.baseRulesOf head ≠ [])
    (recursive : g.leftRecursiveRulesOf head ≠ []) :
    ∃ events g', Resolution g g' ∧ eliminateDirect kind allow head g = ⟨g', events, .ok ()⟩ := by
  rw [run_eliminateDirect_based based recursive]
  by_cases nothing : (g.directRecursion head).recursive = []
  · exact ⟨_, _, .loops based recursive nothing, run_removeDirect_loops nothing⟩
  · exact ⟨_, _, .direct based nothing, run_removeDirect nothing⟩

end Direct

/-- The rest of a round, after a step that has changed the grammar. -/
theorem run_checked {step : Editing Unit} {events : List Event} {size : Int}
    (run : step g = ⟨g', events, .ok ()⟩) (within : g'.rules.length ≤ size) :
    (do step; checkSize (.int size); return false : Editing Bool) g = ⟨g', events, .ok false⟩ := by
  rw [run_bind_ok (a := ()) (by rw [run]), run, run_bind_pure, run_checkSize within]
  simp [Run.after, Except.map]

theorem run_breakCycle {cycles others : List Cycle} {first : Cycle}
    (paths : cycles.map Cycle.rules = g.leftRecursivePaths)
    (trips : ∀ c ∈ cycles, g.RoundTrip c.root c.rules)
    (kept : cycles.filter (fun c => g.hasBaseCase c.root) = first :: others) :
    ∃ events g', Resolution g g' ∧ breakCycle first others g = ⟨g', events, .ok ()⟩ := by
  have looked (c : Cycle) (occurs : c ∈ first :: others) :
      c ∈ cycles ∧ g.baseRulesOf c.root ≠ [] := by
    rw [← kept] at occurs
    exact (List.mem_filter.mp occurs).imp_right hasBaseCase_iff.mp
  unfold breakCycle
  cases found : (first :: others).find? Cycle.isDirect with
  | some c =>
    obtain ⟨known, based⟩ := looked c (List.mem_of_find?_eq_some found)
    have recursive := leftRecursive_of_isDirect (trips c known) (List.find?_some found)
    exact run_eliminateDirect based (List.ne_nil_of_mem recursive)
  | none =>
    obtain ⟨known, based⟩ := looked first List.mem_cons_self
    have indirect : ∀ c ∈ first :: others, c.isDirect = false := by
      simpa using List.find?_eq_none.mp found
    have trip := trips first known
    obtain ⟨member, closes, other⟩ := Cycle.closing trip (indirect first List.mem_cons_self)
    have back : Relation.ReflTransGen g.Leads first.root first.last.rule.head :=
      reaches_of_linked trip.rules trip.linked (List.mem_of_getLast? first.getLast?_rules)
    have cleared := fun head => @cleared_of_indirect g head cycles paths trips (kept ▸ indirect)
    have shortening : Shortening g first.root first.last.rule :=
      ⟨member, closes, other, back, based, cleared, idle_before_root paths trips kept⟩
    exact ⟨_, _, .substitution shortening, run_substitute member closes shortening.defined⟩

/-- A round settles and leaves the grammar as it is, or it resolves something. Then it goes on as
long as the size of the grammar allows. -/
theorem run_cycleRound (plain : g.hasShorthand = false) :
    (∀ largest, cycleRound largest g = ⟨g, [], .ok true⟩) ∨
      ∃ events g', Resolution g g' ∧ ∀ size : Int, g'.rules.length ≤ size →
        cycleRound (.int size) g = ⟨g', events, .ok false⟩ := by
  obtain ⟨cycles, listed, paths, sound⟩ := leftRecursionCycles_ok plain
  cases kept : cycles.filter (fun cycle => g.hasBaseCase cycle.root) with
  | nil =>
    left
    intro largest
    unfold cycleRound
    rw [run_current_bind, listed, run_ofExcept_ok_bind, kept]
    rfl
  | cons first others =>
    right
    obtain ⟨events, g', resolution, run⟩ :=
      run_breakCycle paths (fun c known => (sound c known).1) kept
    refine ⟨events, g', resolution, ?_⟩
    intro size within
    unfold cycleRound
    rw [run_current_bind, listed, run_ofExcept_ok_bind, kept]
    exact run_checked run within

end Editing
end Ebnf
