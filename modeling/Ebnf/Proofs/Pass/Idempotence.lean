import Mathlib
import Ebnf.Proofs.Pass.NormalForm
import Ebnf.Proofs.Pass.Removal

/-! A pass that has succeeded has nothing left to do. For a transformation this is what its last
round says; for a pass that goes through its stages once it takes that no later stage brings back
what an earlier one has taken out. -/
namespace Ebnf

open Grammar

/-- What may be repeated at all does not depend on how often. -/
theorem Document.isSome_times? (d : Document) (m n : Nat) :
    (d.times? m).isSome = (d.times? n).isSome := by
  cases d <;> simp [times?]

/-- The fresh start symbol of an augmented grammar heads its own rule and no other. -/
theorem Grammar.started_augmented (g : Grammar) (start : Name) :
    let rule : Rule := ⟨g.fresh start, .nonTerminal start, []⟩
    let augmented : Grammar := ⟨rule :: g.rules, some rule.head⟩
    augmented.requireStart = .ok rule.head ∧ augmented.rulesOf rule.head = [rule] := by
  intro rule augmented
  have member : rule ∈ augmented.rules := List.mem_cons_self
  refine ⟨requireStart_eq_ok.mpr ⟨rfl, fun _ => head_mem_heads member⟩, ?_⟩
  have others : g.rulesOf rule.head = [] := by
    by_contra headed
    exact g.fresh_notMem_names start (mem_names_of_mem_heads (rulesOf_ne_nil.mp headed))
  calc augmented.rulesOf rule.head
    _ = rule :: g.rulesOf rule.head := List.filter_cons_of_pos (decide_eq_true rfl)
    _ = [rule] := by rw [others]

namespace Editing

variable {g g' : Grammar} {limits : Limits}

/-! Transformations. -/

theorem not_leaves_true {α : Type} {x : Editing α} :
    ¬ (x >>= fun _ => pure false).Leaves g true g' := by
  rw [leaves_bind]
  rintro ⟨_, _, _, last⟩
  simp at last

theorem idempotent_expandShorthand : (expandShorthand limits).Idempotent := by
  refine idempotent_perform (fun _ => traced_repeatUntil fun _ => traced_expandRound)
    (idempotent_repeatUntil (fun _ => traced_expandRound) fun g g' left => ?_)
  rw [quiet_expandRound]
  rw [expandRound, leaves_current_bind] at left
  cases shorthand : g.hasShorthand with
  | false => rfl
  | true =>
    rw [shorthand] at left
    exact absurd left not_leaves_true

theorem idempotent_removeDirectLeftRecursion :
    (removeDirectLeftRecursion limits).Idempotent := by
  refine idempotent_perform (fun _ => traced_repeatUntil fun _ => traced_directRound)
    (idempotent_repeatUntil (fun _ => traced_directRound) fun g g' left => ?_)
  rw [directRound, leaves_current_bind] at left
  rw [directRound, quiet_current_bind]
  split at left
  · exact absurd left not_leaves_true
  · next none =>
    rw [if_neg none]
    exact quiet_pure.mpr rfl

theorem idempotent_factorSharedLeads : (factorSharedLeads limits).Idempotent := by
  refine idempotent_perform (fun _ => traced_repeatUntil fun _ => traced_factorRound)
    (idempotent_repeatUntil (fun _ => traced_factorRound) fun g g' left => ?_)
  rw [quiet_factorRound]
  rw [factorRound, leaves_current_bind] at left
  obtain ⟨groups, found, rest⟩ := leaves_ofExcept_bind.mp left
  split at rest
  · next none => exact none ▸ mapError_eq_ok.mp found
  · exact absurd rest not_leaves_true

theorem cycleRound_leaves {largest : Document} (left : (cycleRound largest).Leaves g true g') :
    (cycleRound largest).Quiet g true := by
  rw [quiet_cycleRound]
  rw [cycleRound, leaves_current_bind] at left
  obtain ⟨cycles, listed, rest⟩ := leaves_ofExcept_bind.mp left
  split at rest
  · next none => exact ⟨cycles, listed, by simpa using List.filter_eq_nil_iff.mp none⟩
  · obtain ⟨_, _, rest⟩ := leaves_bind_unit.mp rest
    exact absurd rest not_leaves_true

/-- The grammar that is left may have another size, but that only changes how far it may grow. -/
theorem idempotent_removeLeftRecursion : (removeLeftRecursion limits).Idempotent := by
  intro g g' left
  obtain ⟨_, worked⟩ := leaves_perform.mp left
  rw [resolveCycles, leaves_current_bind] at worked
  split at worked
  · exact absurd worked not_leaves_fail
  · next largest growth =>
    have quiet := idempotent_repeatUntil (fun _ => traced_cycleRound)
      (fun _ _ => cycleRound_leaves) g g' worked
    obtain ⟨admits, settled⟩ := (quiet_repeatUntil fun _ => traced_cycleRound).mp quiet
    refine quiet_removeLeftRecursion.mpr ⟨admits, ?_, quiet_cycleRound.mp settled⟩
    rw [Document.isSome_times? _ _ (max g.rules.length 1), growth]
    rfl

theorem idempotent_removeUnreachable : removeUnreachable.Idempotent := by
  intro g g' left
  obtain ⟨plain, pruned⟩ := removeUnreachable_leaves left
  have fewer : ∀ rule ∈ g'.rules, rule ∈ g.rules := fun _ => pruned.sublist.mem
  exact quiet_removeUnreachable.mpr ⟨plain_of_subset fewer plain, pruned.reached⟩

theorem idempotent_removeDuplicates : removeDuplicates.Idempotent := by
  intro g g' left
  obtain ⟨plain, rfl⟩ := removeDuplicates_leaves left
  exact quiet_removeDuplicates.mpr
    ⟨plain_of_subset (fun _ => List.mem_eraseDups.mp) plain, nodup_eraseDups _⟩

/-- Augmentation leaves a start symbol alone that heads a single rule, which is a unit. -/
theorem augment_leaves (left : augment.Leaves g () g') : g.rules = [] ∧ g' = g ∨
    ∃ start, g.requireStart = .ok start ∧
      ((∃ rule, g.rulesOf start = [rule] ∧ rule.isUnit = true) ∧ g' = g ∨
        (¬ ∃ rule, g.rulesOf start = [rule] ∧ rule.isUnit = true) ∧
          g' = ⟨⟨g.fresh start, .nonTerminal start, []⟩ :: g.rules, some (g.fresh start)⟩) := by
  rw [augment, leaves_current_bind] at left
  split at left
  · next empty => exact .inl ⟨empty, (leaves_pure.mp left).2.symm⟩
  · next some =>
    obtain ⟨start, started, rest⟩ := leaves_ofExcept_bind.mp left
    have started := mapError_eq_ok.mp started
    refine .inr ⟨start, started, ?_⟩
    split at rest
    · next none => exact absurd none (rulesOf_ne_nil.mpr ((requireStart_eq_ok.mp started).2 some))
    · next rule others rules =>
      split at rest
      · next already =>
        exact .inl ⟨⟨rule, by rw [rules, already.1], already.2⟩, (leaves_remark.mp rest).symm⟩
      · next unaugmented =>
        refine .inr ⟨?_, rest.2.symm⟩
        rintro ⟨unit, single, isUnit⟩
        obtain ⟨rfl, rfl⟩ : rule = unit ∧ others = [] := by simpa [rules] using single
        exact unaugmented ⟨rfl, isUnit⟩

theorem idempotent_augmentStart : augmentStart.Idempotent := by
  refine idempotent_perform (fun _ => traced_augment) fun g g' left => ?_
  rw [quiet_augment]
  rcases augment_leaves left with ⟨empty, rfl⟩ | ⟨start, started, single | augmented⟩
  · exact .inl empty
  · obtain ⟨⟨rule, alone, unit⟩, rfl⟩ := single
    exact .inr ⟨start, rule, started, alone, unit⟩
  · obtain ⟨_, rfl⟩ := augmented
    obtain ⟨started, alone⟩ := started_augmented g start
    exact .inr ⟨_, _, started, alone, rfl⟩

/-! Composite passes. -/

theorem leaves_stage {pass : Pass} {work : Editing Unit} :
    (stage pass work).Leaves g () g' ↔ work.Leaves g () g' := by
  simp only [stage, leaves_bind, leaves_recorded, leaves_remark]
  constructor
  · rintro ⟨_, _, ⟨left, _⟩, rfl⟩
    exact left
  · exact fun left => ⟨((), (work g).records), g', ⟨left, rfl⟩, rfl⟩

theorem leaves_rejectIfAny {problems : List Diagnostic} :
    (rejectIfAny problems).Leaves g () g' ↔ problems = [] ∧ g = g' := by
  unfold rejectIfAny
  split <;> simp [*]

theorem leaves_forM_remark {α : Type} {r : α → Remark} {xs : List α} :
    (xs.forM fun x => remark (r x)).Leaves g () g' ↔ g = g' := by
  induction xs with
  | nil => exact leaves_pure.trans (and_iff_right rfl)
  | cons x xs ih => exact leaves_remark_bind.trans ih

theorem idempotent_untilQuiet {among : Transformation → Prop} {pass : Pass} {work : Editing Unit}
    (traced : ∀ g, work.Traced among g) : (untilQuiet pass limits work).Idempotent := by
  intro g g' left
  have quiet : work.Quiet g' () := left.2 ▸ untilQuiet_ok traced left.1
  exact (quiet_untilQuiet traced).mpr ⟨(exists_settling_step left).1, quiet⟩

theorem idempotent_finish {among : Transformation → Prop} {pass : Pass} {work : Editing Unit}
    (traced : ∀ g, work.Traced among g) (idempotent : work.Idempotent) :
    (finish pass work).Idempotent := by
  intro g g' left
  obtain ⟨done, _, first, rest⟩ := leaves_bind.mp left
  rw [leaves_current_bind, leaves_remark] at rest
  rw [quiet_finish (traced g')]
  exact idempotent g g' (rest ▸ (leaves_recorded.mp first).1)

/-- The stages behind the expansion of units only take rules out, none of which the units that are
left would miss. -/
theorem idempotent_clean : (clean limits).Idempotent := by
  intro g g' left
  simp only [clean, leaves_bind_unit, leaves_stage] at left
  obtain ⟨g₁, shorthand, g₂, removal, g₃, units, g₄, duplicates, unreachable⟩ := left
  obtain ⟨admits, _⟩ := quiet_expandShorthand.mp (idempotent_expandShorthand g g₁ shorthand)
  obtain ⟨last, expanded⟩ : ∃ last, (expandUnits limits).Leaves g₂ last g₃ := by
    obtain ⟨last, _, expanded, done⟩ := leaves_bind.mp units
    exact ⟨last, (leaves_pure.mp done).2 ▸ expanded⟩
  obtain ⟨_, _, settled⟩ := expandUnits_leaves expanded
  obtain ⟨_, rfl⟩ := removeDuplicates_leaves duplicates
  obtain ⟨plain, pruned⟩ := removeUnreachable_leaves unreachable
  refine quiet_clean.mpr ⟨admits, plain_of_subset (fun _ => pruned.sublist.mem) plain,
    (nodup_eraseDups _).sublist pruned.sublist, pruned.reached, fun rule member target unit => ?_⟩
  have old : rule ∈ g₃.rules := List.mem_eraseDups.mp (pruned.sublist.mem member)
  exact pruned.settled member unit (settled_eraseDups unit (settled rule old target unit))

/-- Factoring can only bring a left recursion back if there is one at the end, and then the pass
does not succeed. -/
theorem idempotent_fix : (fix limits).Idempotent := by
  intro g g' left
  simp only [fix, leaves_bind_unit, leaves_stage, leaves_current_bind, leaves_ofExcept_bind,
    leaves_forM_remark, leaves_rejectIfAny] at left
  obtain ⟨g₁, recursion, g₂, factored, g₃, unreachable, problems, found, _, rfl, rfl, rfl⟩ := left
  obtain ⟨admits, growth, _⟩ :=
    quiet_removeLeftRecursion.mp (idempotent_removeLeftRecursion g g₁ recursion)
  obtain ⟨_, apart⟩ :=
    quiet_factorSharedLeads.mp (idempotent_factorSharedLeads g₁ g₂ factored)
  obtain ⟨plain, pruned⟩ := removeUnreachable_leaves unreachable
  have plain := plain_of_subset (fun _ => pruned.sublist.mem) plain
  have acyclic : g₃.Acyclic := by
    rcases problems_eq_nil_iff.mp found with empty | ⟨_, _, _, acyclic⟩
    · exact acyclic_of_empty empty
    · exact acyclic
  have groups := leadGroups_eq_nil_iff.mp (leadGroups_eq_ok.mp apart).2.symm
  refine quiet_fix.mpr ⟨quiet_removeLeftRecursion.mpr ⟨admits, ?_, [],
    leftRecursionCycles_eq_nil_iff.mpr ⟨plain, acyclic⟩, by simp⟩, ?_,
    quiet_removeUnreachable.mpr ⟨plain, pruned.reached⟩, found⟩
  · rwa [Document.isSome_times?]
  · exact quiet_factorSharedLeads.mpr ⟨admits, leadGroups_eq_ok.mpr
      ⟨plain, (leadGroups_eq_nil_iff.mpr (groups.sublist pruned.sublist)).symm⟩⟩

theorem idempotent_prepareLR1 : (prepareLR1 limits).Idempotent := by
  have expands {g : Grammar} : (stage (.single .shorthand) (expandShorthand limits)).Traced
      (fun _ => True) g := traced_stage (traced_expandShorthand.among_of_eq trivial)
  have augments {g : Grammar} : (stage (.single .augmentation) augmentStart).Traced
      (fun _ => True) g := traced_stage (traced_augmentStart.among_of_eq trivial)
  refine idempotent_finish (fun _ => traced_bind expands fun _ _ => traced_bind augments fun _ _ =>
    traced_current_bind (traced_bind (traced_ofExcept _) fun _ _ => traced_rejectIfAny))
    fun g g' left => ?_
  simp only [leaves_bind_unit, leaves_stage, leaves_current_bind, leaves_ofExcept_bind,
    leaves_rejectIfAny] at left
  obtain ⟨g₁, shorthand, g₂, augmented, problems, found, rfl, rfl⟩ := left
  obtain ⟨admits, _⟩ := quiet_expandShorthand.mp (idempotent_expandShorthand g g₁ shorthand)
  have quiet : augmentStart.Quiet g₂ () := idempotent_augmentStart g₁ g₂ augmented
  have plain : g₂.hasShorthand = false := (quiet_augmentStart.mp quiet).1
  rw [quiet_bind_unit expands, quiet_stage traced_expandShorthand, quiet_bind_unit augments,
    quiet_stage traced_augmentStart, quiet_current_bind, quiet_ofExcept_bind]
  exact ⟨quiet_expandShorthand.mpr ⟨admits, plain⟩, quiet, [], found, quiet_rejectIfAny.mpr rfl⟩

/-- One round of direct left recursion removal is the exception: it may leave rules that the next
round rewrites. -/
theorem idempotent_program {pass : Pass} (other : pass ≠ .single .leftRecursionRound) :
    (pass.program limits).Idempotent := by
  cases pass with
  | single kind =>
    cases kind with
    | shorthand => exact idempotent_expandShorthand
    | leftRecursion => exact idempotent_removeLeftRecursion
    | leftRecursionRound => exact absurd rfl other
    | directLeftRecursion => exact idempotent_removeDirectLeftRecursion
    | sharedLeads => exact idempotent_factorSharedLeads
    | unreachable => exact idempotent_removeUnreachable
    | units => exact idempotent_expandUnits
    | duplicates => exact idempotent_removeDuplicates
    | augmentation => exact idempotent_augmentStart
  | clean => exact idempotent_clean
  | cleanUntilQuiet => exact idempotent_untilQuiet fun _ => traced_clean
  | fix => exact idempotent_fix
  | fixUntilQuiet => exact idempotent_untilQuiet fun _ => traced_fix
  | normalize =>
    exact idempotent_finish (fun _ => traced_untilQuiet fun _ => traced_normalizeRound)
      (idempotent_untilQuiet fun _ => traced_normalizeRound)
  | prepareLR1 => exact idempotent_prepareLR1

end Editing

/-- A pass that succeeds and is then run again with the same limits succeeds again, without a
record, and leaves the grammar as it is. -/
theorem Pass.run_idempotent (pass : Pass) (limits : Limits) (g : Grammar)
    (other : pass ≠ .single .leftRecursionRound) (ended : (pass.run limits g).outcome = .ok ()) :
    let g' := (pass.run limits g).grammar
    (pass.run limits g').outcome = .ok () ∧ (pass.run limits g').records = [] ∧
      (pass.run limits g').grammar = g' := by
  have quiet : (pass.program limits).Quiet (pass.run limits g).grammar () :=
    Editing.idempotent_program other g _ ⟨ended, rfl⟩
  exact ⟨quiet.1, quiet.2, quiet.grammar_eq (pass.run_path limits _)⟩

/-- `C → D`, `C → D`, `D → a` and `E → D`. -/
def Grammar.cluttered : Grammar :=
  let unit (head : Name) : Rule := ⟨head, .nonTerminal ⟨"D", by decide⟩, []⟩
  .ofRules [unit ⟨"C", by decide⟩, unit ⟨"C", by decide⟩,
    ⟨⟨"D", by decide⟩, .terminal ⟨"a", none⟩, []⟩, unit ⟨"E", by decide⟩] (some ⟨"C", by decide⟩)

theorem Pass.run_cluttered :
    let g := (Pass.clean.run (.ofCounts 2 2) Grammar.cluttered).grammar
    Pass.clean ≠ .single .leftRecursionRound ∧
      (Pass.clean.run (.ofCounts 2 2) Grammar.cluttered).outcome = .ok () ∧
      (Pass.clean.run (.ofCounts 2 2) g).outcome = .ok () ∧
      (Pass.clean.run (.ofCounts 2 2) g).records = [] ∧
      (Pass.clean.run (.ofCounts 2 2) g).grammar = g := by
  have ended : (Pass.clean.run (.ofCounts 2 2) Grammar.cluttered).outcome = .ok () := by cbv
  exact ⟨by decide, ended, Pass.run_idempotent .clean _ _ (by decide) ended⟩

end Ebnf
