import Ebnf.Proofs.Analysis.Reachability
import Ebnf.Proofs.Editing.Quiet
import Ebnf.Proofs.Pass.Traces

/-! What it takes for a transformation to commit nothing. In each case this is a fact about the
grammar as it is, so a grammar that several transformations leave alone has all these facts at
once. -/
namespace Ebnf

namespace Grammar

/-- A unit rule that its expansion would not help with: it names its own head or a non-terminal
without rules, or it would come back. -/
def Settled (g : Grammar) (rule : Rule) (target : Name) : Prop :=
  target = rule.head ∨ rule ∈ g.unitExpansion rule target ∨ g.unitExpansion rule target = []

theorem unitExpansion_eq_nil_iff {g : Grammar} {rule : Rule} {target : Name} :
    g.unitExpansion rule target = [] ↔ target ∉ g.heads := by
  rw [unitExpansion, List.map_eq_nil_iff, ← rulesOf_ne_nil, not_not]

theorem dropped_eq_nil_iff {g : Grammar} {keep : Name → Bool} :
    g.dropped keep = [] ↔ ∀ head ∈ g.heads, keep head = true := by
  simp only [dropped, List.filter_eq_nil_iff, Bool.not_eq_true, Bool.not_eq_false']
  constructor
  · intro all head headed
    obtain ⟨rule, member, rfl⟩ := mem_heads.mp headed
    exact all rule member
  · exact fun all rule member => all rule.head (head_mem_heads member)

end Grammar

namespace Editing

open Grammar

variable {g : Grammar} {limits : Limits} {rule : Rule} {aside last : List Rule}

theorem quiet_commit_forM_bind {kind : Transformation} {rules : List Rule}
    {f : Unit → Editing Unit} :
    (rules.forM (commit kind · []) >>= f).Quiet g () ↔ rules = [] ∧ (f ()).Quiet g () := by
  rw [Quiet, run_forM_commit_bind]
  cases rules with
  | nil => simp [Quiet, Run.after]
  | cons rule rules => simp [Event.record, Event.record?]

theorem quiet_edit_bind {α : Type} {a : α} {h : Grammar → Grammar} {f : Unit → Editing α} :
    (edit h >>= f).Quiet g a ↔ (f ()).Quiet (h g) a := Iff.rfl

/-! Shorthand. -/

theorem quiet_expandRound : expandRound.Quiet g true ↔ g.hasShorthand = false := by
  unfold expandRound
  rw [quiet_current_bind]
  cases g.hasShorthand with
  | false => simp
  | true =>
    refine iff_of_false (fun quiet => ?_) (by simp)
    obtain ⟨_, _, last⟩ := outcome_bind_ok quiet.1
    simp at last

theorem quiet_expandShorthand : (expandShorthand limits).Quiet g () ↔
    Admits limits.maxIterations ∧ g.hasShorthand = false := by
  rw [expandShorthand, quiet_perform (traced_repeatUntil fun _ => traced_expandRound),
    quiet_repeatUntil fun _ => traced_expandRound, quiet_expandRound]
  simp

/-! Repeated and unreachable rules. -/

theorem quiet_removeDuplicates :
    removeDuplicates.Quiet g () ↔ g.hasShorthand = false ∧ g.rules.Nodup := by
  rw [removeDuplicates, quiet_perform traced_dropRepeated, dropRepeated, quiet_current_bind,
    quiet_commit_forM_bind, repeatedAfter_eq_nil_iff]
  simp [Quiet, Run.records]

theorem quiet_removeUnreachable : removeUnreachable.Quiet g () ↔ g.hasShorthand = false ∧
    (g.rules = [] ∨
      ∃ start, g.requireStart = .ok start ∧ ∀ head ∈ g.heads, g.Reaches start head) := by
  rw [removeUnreachable, quiet_perform traced_dropUnreachable, dropUnreachable, quiet_current_bind]
  simp only [ne_eq, reduceCtorEq, not_false_eq_true, forall_const, and_congr_right_iff]
  intro plain
  by_cases empty : g.rules = []
  · simp [empty]
  rw [if_neg empty, quiet_ofExcept_bind]
  simp only [mapError_eq_ok, empty, false_or]
  have nothing {reached : List Name} : (edit (·.retain (· ∈ reached)) >>= fun _ =>
      (g.dropped (· ∈ reached)).forM (commit .unreachable · []) >>= fun _ =>
        if g.dropped (· ∈ reached) ≠ [] then
          remark (.removed ((g.dropped (· ∈ reached)).map Rule.head).eraseDups)
        else pure ()).Quiet g () ↔ ∀ head ∈ g.heads, head ∈ reached := by
    rw [quiet_edit_bind, quiet_commit_forM_bind]
    constructor
    · rintro ⟨none, _⟩
      simpa using dropped_eq_nil_iff.mp none
    · intro all
      have none : g.dropped (· ∈ reached) = [] := dropped_eq_nil_iff.mpr (by simpa using all)
      exact ⟨none, by simp [none]⟩
  constructor
  · rintro ⟨reached, found, quiet⟩
    obtain ⟨_, start, started, reached_iff⟩ := reachable_eq_ok found
    refine ⟨start, started, fun head headed => ?_⟩
    rw [reaches_iff, ← reached_iff]
    exact nothing.mp quiet head headed
  · rintro ⟨start, started, all⟩
    obtain ⟨reached, found⟩ := reachable_of_requireStart plain started
    obtain ⟨_, first, started', reached_iff⟩ := reachable_eq_ok found
    obtain rfl : start = first := by simpa [started] using started'
    refine ⟨reached, found, nothing.mpr fun head headed => ?_⟩
    rw [reached_iff, ← reaches_iff]
    exact all head headed

/-! Units. -/

theorem quiet_expandUnit {target : Name} (member : rule ∈ g.rules) :
    (expandUnit aside rule target).Quiet g last ↔
      g.Settled rule target ∧ last = aside ++ [rule] := by
  unfold expandUnit Settled
  rw [quiet_current_bind]
  dsimp only
  split
  · next same =>
    rw [quiet_remark_bind, quiet_pure, eq_comm]
    exact ⟨fun done => ⟨.inl same, done⟩, And.right⟩
  · next other =>
    split
    · next back =>
      rw [quiet_remark_bind, quiet_pure, eq_comm]
      exact ⟨fun done => ⟨.inr (.inl back), done⟩, And.right⟩
    · next lost =>
      split
      · next undefined =>
        rw [quiet_pure, eq_comm]
        exact ⟨fun done => ⟨.inr (.inr undefined), done⟩, And.right⟩
      · next defined =>
        refine iff_of_false (fun quiet => ?_) (by simp [other, lost, defined])
        rw [Quiet, run_replace_bind _ member] at quiet
        exact not_quiet_commit_bind quiet

/-- The units of a list that a quiet round goes through are settled, and all are set aside. -/
theorem settled_of_quiet_foldlM {rules : List Rule} (within : ∀ rule ∈ rules, rule ∈ g.rules)
    (before : ∀ rule ∈ aside, ∀ target, rule.unit? = some target → g.Settled rule target)
    (quiet : (rules.foldlM expandIfUnit aside).Quiet g last) :
    ∀ rule ∈ rules, ∀ target, rule.unit? = some target → g.Settled rule target := by
  induction rules generalizing aside with
  | nil => simp
  | cons first rules ih =>
    rw [List.foldlM_cons, quiet_bind traced_expandIfUnit] at quiet
    obtain ⟨next, head, rest⟩ := quiet
    have member := within first List.mem_cons_self
    have kept : (∀ target, first.unit? = some target → g.Settled first target) ∧
        ∀ rule ∈ next, ∀ target, rule.unit? = some target → g.Settled rule target := by
      unfold expandIfUnit at head
      rw [quiet_current_bind] at head
      split at head
      · next target unit =>
        split at head
        · obtain ⟨settled, rfl⟩ := (quiet_expandUnit member).mp head
          have here : ∀ target, first.unit? = some target → g.Settled first target := by
            intro other same
            obtain rfl : target = other := Option.some.inj (unit.symm.trans same)
            exact settled
          refine ⟨here, fun rule listed => ?_⟩
          rcases List.mem_append.mp listed with old | new
          · exact before rule old
          · rw [List.mem_singleton.mp new]
            exact here
        · next there =>
          obtain rfl := quiet_pure.mp head
          have listed : first ∈ aside := by
            by_contra outside
            exact there ⟨outside, member⟩
          exact ⟨before first listed, before⟩
      · next none =>
        obtain rfl := quiet_pure.mp head
        exact ⟨fun target unit => by simp [none] at unit, before⟩
    intro rule listed
    rcases List.mem_cons.mp listed with rfl | later
    · exact kept.1
    · exact ih (fun r later => within r (List.mem_cons_of_mem _ later)) kept.2 rest rule later

theorem quiet_foldlM_of_settled {rules : List Rule} (within : ∀ rule ∈ rules, rule ∈ g.rules)
    (settled : ∀ rule ∈ rules, ∀ target, rule.unit? = some target → g.Settled rule target) :
    ∃ last, (rules.foldlM expandIfUnit aside).Quiet g last ∧ (∀ rule ∈ aside, rule ∈ last) ∧
      ∀ rule ∈ rules, rule.isUnit = true → rule ∈ last := by
  induction rules generalizing aside with
  | nil => exact ⟨aside, quiet_pure.mpr rfl, fun _ member => member, by simp⟩
  | cons first rules ih =>
    have member := within first List.mem_cons_self
    obtain ⟨next, head, kept, added⟩ : ∃ next, (expandIfUnit aside first).Quiet g next ∧
        (∀ rule ∈ aside, rule ∈ next) ∧ (first.isUnit = true → first ∈ next) := by
      unfold expandIfUnit
      simp only [quiet_current_bind]
      cases unit : first.unit? with
      | none => exact ⟨aside, quiet_pure.mpr rfl, fun _ old => old, by simp [Rule.isUnit, unit]⟩
      | some target =>
        dsimp only
        by_cases old : first ∈ aside
        · rw [if_neg fun there => there.1 old]
          exact ⟨aside, quiet_pure.mpr rfl, fun _ old => old, fun _ => old⟩
        · rw [if_pos ⟨old, member⟩]
          refine ⟨aside ++ [first], (quiet_expandUnit member).mpr ⟨?_, rfl⟩,
            fun _ old => List.mem_append_left _ old, by simp⟩
          exact settled first List.mem_cons_self target unit
    obtain ⟨last, rest, kept', added'⟩ := @ih next
      (fun r later => within r (List.mem_cons_of_mem _ later))
      fun r later => settled r (List.mem_cons_of_mem _ later)
    refine ⟨last, ?_, fun r old => kept' r (kept r old), fun r listed unit => ?_⟩
    · rw [List.foldlM_cons, quiet_bind traced_expandIfUnit]
      exact ⟨next, head, rest⟩
    · rcases List.mem_cons.mp listed with rfl | later
      · exact kept' r (added unit)
      · exact added' r later unit

theorem quiet_expandUnits : (∃ last, (expandUnits limits).Quiet g last) ↔
    Admits limits.maxIterations ∧ g.hasShorthand = false ∧
      ∀ rule ∈ g.rules, ∀ target, rule.unit? = some target → g.Settled rule target := by
  have traced : (g.rules.foldlM expandIfUnit []).Traced (· = .units) g :=
    traced_foldlM fun _ _ _ => traced_expandIfUnit
  constructor
  · rintro ⟨last, quiet⟩
    rw [expandUnits, quiet_perform (traced_settle fun _ _ => traced_unitRound)] at quiet
    obtain ⟨plain, quiet⟩ := quiet
    obtain ⟨admits, progress, first⟩ := quiet_settle_first traced_unitRound quiet
    rw [unitRound, quiet_current_bind, quiet_bind traced] at first
    obtain ⟨aside, round, _⟩ := first
    have settled := settled_of_quiet_foldlM (fun _ member => member) (by simp) round
    exact ⟨admits, plain (by simp), settled⟩
  · rintro ⟨admits, plain, settled⟩
    obtain ⟨last, round, _, all⟩ := quiet_foldlM_of_settled (fun _ member => member) settled
    refine ⟨last, ?_⟩
    rw [expandUnits, quiet_perform (traced_settle fun _ _ => traced_unitRound)]
    refine ⟨fun _ => plain, quiet_settle_of_settled traced_unitRound admits ?_⟩
    rw [unitRound, quiet_current_bind, quiet_bind traced]
    refine ⟨last, round, ?_⟩
    simpa [quiet_current_bind] using all

/-! Left recursion and shared leads. -/

theorem quiet_cycleRound {largest : Document} : (cycleRound largest).Quiet g true ↔
    ∃ cycles, g.leftRecursionCycles = .ok cycles ∧ ∀ c ∈ cycles, g.hasBaseCase c.root = false := by
  unfold cycleRound
  rw [quiet_current_bind, quiet_ofExcept_bind]
  refine exists_congr fun cycles => and_congr_right fun _ => ?_
  cases kept : cycles.filter fun c => g.hasBaseCase c.root with
  | nil => simpa using List.filter_eq_nil_iff.mp kept
  | cons first others =>
    have member : first ∈ cycles.filter fun c => g.hasBaseCase c.root := by simp [kept]
    obtain ⟨known, based⟩ := List.mem_filter.mp member
    refine iff_of_false (fun quiet => ?_) fun none => by simp [none first known] at based
    obtain ⟨_, _, rest⟩ := outcome_bind_ok quiet.1
    obtain ⟨_, _, last⟩ := outcome_bind_ok rest
    simp at last

theorem quiet_removeLeftRecursion : (removeLeftRecursion limits).Quiet g () ↔
    Admits limits.maxIterations ∧ (limits.maxGrowth.times? (max g.rules.length 1)).isSome ∧
      ∃ cycles, g.leftRecursionCycles = .ok cycles ∧
        ∀ c ∈ cycles, g.hasBaseCase c.root = false := by
  rw [removeLeftRecursion, quiet_perform traced_resolveCycles, resolveCycles, quiet_current_bind]
  cases limits.maxGrowth.times? (max g.rules.length 1) with
  | none => simp
  | some largest =>
    simp only [quiet_repeatUntil fun _ => traced_cycleRound, quiet_cycleRound, Option.isSome_some,
      true_and, ne_eq, reduceCtorEq, not_false_eq_true, forall_const]
    constructor
    · exact And.right
    · rintro ⟨admits, cycles, listed, based⟩
      exact ⟨(leftRecursionCycles_sound listed).1, admits, cycles, listed, based⟩

theorem quiet_factorRound : factorRound.Quiet g true ↔ g.leadGroups = .ok [] := by
  unfold factorRound
  rw [quiet_current_bind, quiet_ofExcept_bind]
  simp only [mapError_eq_ok]
  constructor
  · rintro ⟨groups, found, quiet⟩
    split at quiet
    · next empty => rw [found, empty]
    · obtain ⟨_, _, last⟩ := outcome_bind_ok quiet.1
      simp at last
  · exact fun found => ⟨[], found, by simp⟩

theorem quiet_factorSharedLeads : (factorSharedLeads limits).Quiet g () ↔
    Admits limits.maxIterations ∧ g.leadGroups = .ok [] := by
  rw [factorSharedLeads, quiet_perform (traced_repeatUntil fun _ => traced_factorRound),
    quiet_repeatUntil fun _ => traced_factorRound, quiet_factorRound]
  simp only [ne_eq, reduceCtorEq, not_false_eq_true, forall_const, and_iff_right_iff_imp]
  exact fun quiet => (leadGroups_eq_ok.mp quiet.2).1

/-! Augmentation. -/

theorem quiet_augment : augment.Quiet g () ↔ g.rules = [] ∨ ∃ start rule,
    g.requireStart = .ok start ∧ g.rulesOf start = [rule] ∧ rule.isUnit = true := by
  unfold augment
  rw [quiet_current_bind]
  by_cases empty : g.rules = []
  · simp [empty]
  rw [if_neg empty, quiet_ofExcept_bind]
  simp only [mapError_eq_ok, empty, false_or]
  refine exists_congr fun start => ⟨?_, ?_⟩
  · rintro ⟨started, quiet⟩
    split at quiet
    · next none =>
      exact absurd none (rulesOf_ne_nil.mpr ((requireStart_eq_ok.mp started).2 empty))
    · next rule others rules =>
      split at quiet
      · next already => exact ⟨rule, started, by rw [rules, already.1], already.2⟩
      · obtain ⟨_, silent⟩ := quiet
        simp [commit, Run.records, Event.record?] at silent
  · rintro ⟨rule, started, rules, unit⟩
    exact ⟨started, by simp [rules, unit]⟩

theorem quiet_augmentStart : augmentStart.Quiet g () ↔ g.hasShorthand = false ∧
    (g.rules = [] ∨ ∃ start rule,
      g.requireStart = .ok start ∧ g.rulesOf start = [rule] ∧ rule.isUnit = true) := by
  rw [augmentStart, quiet_perform traced_augment, quiet_augment]
  simp

/-! Composite passes. -/

theorem quiet_rejectIfAny {problems : List Diagnostic} :
    (rejectIfAny problems).Quiet g () ↔ problems = [] := by
  unfold rejectIfAny
  split <;> simp [*]

theorem quiet_stage {among : Transformation → Prop} {pass : Pass} {work : Editing Unit}
    (traced : work.Traced among g) : (stage pass work).Quiet g () ↔ work.Quiet g () := by
  rw [stage, quiet_bind (traced_recorded traced)]
  simp only [quiet_recorded, quiet_remark, and_true, Prod.exists]
  constructor
  · rintro ⟨_, _, quiet, _⟩
    exact quiet
  · intro quiet
    exact ⟨(), [], quiet, rfl⟩

theorem quiet_untilQuiet {among : Transformation → Prop} {pass : Pass} {work : Editing Unit}
    (traced : ∀ g, work.Traced among g) :
    (untilQuiet pass limits work).Quiet g () ↔ Admits limits.maxIterations ∧ work.Quiet g () := by
  have stepped (g : Grammar) : (do let done ← recorded work; return done.2 = [] :
      Editing Bool).Traced among g :=
    traced_bind (traced_recorded (traced g)) fun _ _ => traced_pure _
  rw [untilQuiet, quiet_repeatUntil stepped, quiet_bind (traced_recorded (traced g))]
  simp only [quiet_recorded, quiet_pure, Prod.exists]
  apply and_congr_right
  intro _
  constructor
  · rintro ⟨_, _, ⟨quiet, _⟩, _⟩
    exact quiet
  · intro quiet
    exact ⟨(), [], ⟨quiet, rfl⟩, by simp⟩

/-- A loop of passes that succeeds ends with a round that commits nothing. -/
theorem untilQuiet_ok {among : Transformation → Prop} {pass : Pass} {work : Editing Unit}
    (traced : ∀ g, work.Traced among g)
    (ended : (untilQuiet pass limits work g).outcome = .ok ()) :
    work.Quiet (untilQuiet pass limits work g).grammar () := by
  obtain ⟨g', last, left⟩ := repeatUntil_ok ended
  rw [run_bind_pure] at last left
  have quiet : work.Quiet g' () := by
    change ((work g').outcome.map (·, (work g').records)).map _ = _ at last
    unfold Quiet
    cases ended : (work g').outcome with
    | error e => simp [ended, Except.map] at last
    | ok u => simpa [ended, Except.map] using last
  have same : (untilQuiet pass limits work g).grammar = g' :=
    left.trans (quiet.grammar_eq (traced g'))
  rwa [same]

theorem finish_ok {pass : Pass} {work : Editing Unit}
    (ended : (finish pass work g).outcome = .ok ()) :
    (work g).outcome = .ok () ∧ (finish pass work g).grammar = (work g).grammar := by
  obtain ⟨done, first, _⟩ := outcome_bind_ok ended
  refine ⟨(recorded_eq_ok.mp first).1, ?_⟩
  rw [finish, run_bind_ok first]
  rfl

theorem quiet_finish {among : Transformation → Prop} {pass : Pass} {work : Editing Unit}
    (traced : work.Traced among g) : (finish pass work).Quiet g () ↔ work.Quiet g () := by
  rw [finish, quiet_bind (traced_recorded traced)]
  simp only [quiet_recorded, quiet_current_bind, quiet_remark, and_true, Prod.exists]
  constructor
  · rintro ⟨_, _, quiet, _⟩
    exact quiet
  · intro quiet
    exact ⟨(), [], quiet, rfl⟩

end Editing
end Ebnf
