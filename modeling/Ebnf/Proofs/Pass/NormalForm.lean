import Mathlib
import Ebnf.Language.NormalForm
import Ebnf.Proofs.Analysis.Problems
import Ebnf.Proofs.Pass.Quiet

/-! Normalization ends in the normal form. The last round of the outer loop commits nothing, so the
grammar that is left has at once all that any of the passes strives for, and that it has no problems
fills what the passes leave open: heads without another alternative and units that were set aside.
In the other direction a grammar in normal form gives no pass anything to do. -/
namespace Ebnf

open Grammar

namespace Grammar

variable {g : Grammar} {rule : Rule} {target : Name}

/-- There are no groups if and only if alternatives of one head begin alike only with ε. -/
theorem leadGroups_eq_nil_iff : g.heads.flatMap g.leadGroupsOf = [] ↔
    g.rules.Pairwise fun a b => a.head = b.head → a.lead = b.lead → a.lead = .epsilon := by
  have single (head : Name) (lead : Symbol) :
      ((g.rulesOf head).filter (·.lead = lead)).length ≤ 1 ↔
        g.rules.Pairwise fun a b => ¬ ((a.lead = lead ∧ a.head = head) ∧
          (b.lead = lead ∧ b.head = head)) := by
    rw [rulesOf, List.filter_filter, length_filter_le_one_iff]
    simp
  constructor
  · intro none
    rw [List.pairwise_iff_getElem]
    intro i j hi hj before head lead
    by_contra visible
    have alone : ((g.rulesOf g.rules[i].head).filter (·.lead = g.rules[i].lead)).length ≤ 1 := by
      by_contra several
      have listed : (⟨g.rules[i].head, g.rules[i].lead, _⟩ : LeadGroup) ∈
          g.leadGroupsOf g.rules[i].head :=
        mem_leadGroupsOf.mpr ⟨rfl, visible, rfl, Nat.lt_of_not_le several⟩
      have member := List.mem_flatMap.mpr ⟨_, head_mem_heads (List.getElem_mem hi), listed⟩
      rw [none] at member
      cases member
    exact List.pairwise_iff_getElem.mp ((single _ _).mp alone) i j hi hj before
      ⟨⟨rfl, rfl⟩, lead.symm, head.symm⟩
  · intro apart
    rw [List.eq_nil_iff_forall_not_mem]
    intro group member
    obtain ⟨head, _, shared⟩ := List.mem_flatMap.mp member
    obtain ⟨rfl, visible, rules, several⟩ := mem_leadGroupsOf.mp shared
    rw [rules] at several
    refine Nat.not_le_of_lt several ((single _ _).mpr (apart.imp ?_))
    rintro a b same ⟨⟨lead, head⟩, lead', head'⟩
    exact visible (lead ▸ same (head.trans head'.symm) (lead.trans lead'.symm))

theorem pairwise_iff_factored :
    (g.rules.Pairwise fun a b => a.head = b.head → a.lead = b.lead → a.lead = .epsilon) ↔
      ∀ i j (hi : i < g.rules.length) (hj : j < g.rules.length), i ≠ j →
        g.rules[i].head = g.rules[j].head → g.rules[i].lead = g.rules[j].lead →
        g.rules[i].lead = .epsilon := by
  rw [List.pairwise_iff_getElem]
  constructor
  · intro apart i j hi hj different head lead
    rcases Nat.lt_or_gt_of_ne different with before | after
    · exact apart i j hi hj before head lead
    · exact lead.trans (apart j i hj hi after head.symm lead.symm)
  · exact fun apart i j hi hj before => apart i j hi hj (Nat.ne_of_lt before)

theorem acyclic_of_empty (empty : g.rules = []) : g.Acyclic := by
  intro x around
  obtain ⟨_, ⟨rule, member, _⟩, _⟩ := Relation.TransGen.head'_iff.mp around
  simp [empty] at member

/-- Without left recursion a unit is settled only if its target has no rules. -/
theorem settled_iff (acyclic : g.Acyclic) (member : rule ∈ g.rules)
    (unit : rule.unit? = some target) : g.Settled rule target ↔ target ∉ g.heads := by
  have lead : rule.lead = .nonTerminal target := (Rule.unit?_eq_some.mp unit).2
  rw [Settled, unitExpansion_eq_nil_iff]
  refine ⟨?_, fun missing => .inr (.inr missing)⟩
  rintro (same | back | missing)
  · exact absurd (.single ⟨rule, member, same.symm, lead⟩) (acyclic target)
  · obtain ⟨alternative, listed, same⟩ := List.mem_map.mp back
    obtain ⟨there, head⟩ := mem_rulesOf.mp listed
    have leads : alternative.lead = .nonTerminal target := by
      rw [← lead, ← same]
    exact absurd (.single ⟨alternative, there, head, leads⟩) (acyclic target)
  · exact missing

end Grammar

namespace Editing

open Grammar

variable {g : Grammar} {limits : Limits}

theorem quiet_clean : (clean limits).Quiet g () ↔ Admits limits.maxIterations ∧
    g.hasShorthand = false ∧ g.rules.Nodup ∧
    (g.rules = [] ∨ ∃ start, g.requireStart = .ok start ∧ ∀ head ∈ g.heads, g.Reaches start head) ∧
    ∀ rule ∈ g.rules, ∀ target, rule.unit? = some target → g.Settled rule target := by
  have unit : (do let _ ← expandUnits limits : Editing Unit).Traced (· = .units) g :=
    traced_bind traced_expandUnits fun _ _ => traced_pure _
  rw [clean, quiet_bind_unit (traced_stage traced_expandShorthand),
    quiet_bind_unit (traced_stage traced_removeUnreachable), quiet_bind_unit (traced_stage unit),
    quiet_bind_unit (traced_stage traced_removeDuplicates), quiet_stage traced_expandShorthand,
    quiet_stage traced_removeUnreachable, quiet_stage unit, quiet_stage traced_removeDuplicates,
    quiet_bind traced_expandUnits]
  simp only [quiet_pure, and_true, quiet_expandUnits, quiet_expandShorthand,
    quiet_removeUnreachable, quiet_removeDuplicates]
  constructor
  · rintro ⟨⟨admits, plain⟩, ⟨_, reached⟩, ⟨_, _, settled⟩, ⟨_, apart⟩, _⟩
    exact ⟨admits, plain, apart, reached, settled⟩
  · rintro ⟨admits, plain, apart, reached, settled⟩
    exact ⟨⟨admits, plain⟩, ⟨plain, reached⟩, ⟨admits, plain, settled⟩, ⟨plain, apart⟩, plain,
      reached⟩

theorem quiet_fix : (fix limits).Quiet g () ↔ (removeLeftRecursion limits).Quiet g () ∧
    (factorSharedLeads limits).Quiet g () ∧ removeUnreachable.Quiet g () ∧ g.problems = .ok [] := by
  rw [fix, quiet_bind_unit (traced_stage traced_removeLeftRecursion),
    quiet_bind_unit (traced_stage traced_factorSharedLeads),
    quiet_bind_unit (traced_stage traced_removeUnreachable), quiet_stage traced_removeLeftRecursion,
    quiet_stage traced_factorSharedLeads, quiet_stage traced_removeUnreachable, quiet_current_bind,
    quiet_ofExcept_bind]
  refine and_congr_right fun _ => and_congr_right fun _ => and_congr_right fun _ => ?_
  have traced {problems : List Diagnostic} :
      (problems.forM fun problem => remark (.problem problem)).Traced (fun _ => True) g :=
    traced_forM_remark
  constructor
  · rintro ⟨problems, found, quiet⟩
    rw [quiet_bind_unit traced, quiet_rejectIfAny] at quiet
    rw [found, quiet.2]
  · intro found
    refine ⟨[], found, ?_⟩
    rw [quiet_bind_unit traced, quiet_rejectIfAny]
    simp

theorem quiet_normalizeRound : (normalizeRound limits).Quiet g () ↔
    Admits limits.maxIterations ∧ (clean limits).Quiet g () ∧ (fix limits).Quiet g () := by
  have cleaned {g : Grammar} :
      (cleanUntilQuiet limits).Traced (fun kind => ¬ kind.ofLeftRecursion) g :=
    traced_untilQuiet fun _ => traced_clean
  have fixed {g : Grammar} : (fixUntilQuiet limits).Traced (fun _ => True) g :=
    traced_untilQuiet fun _ => traced_fix
  rw [normalizeRound, quiet_bind_unit (traced_stage cleaned), quiet_stage cleaned,
    quiet_stage fixed, cleanUntilQuiet, fixUntilQuiet, quiet_untilQuiet fun _ => traced_clean,
    quiet_untilQuiet fun _ => traced_fix]
  exact ⟨fun ⟨⟨admits, clean⟩, _, fix⟩ => ⟨admits, clean, fix⟩,
    fun ⟨admits, clean, fix⟩ => ⟨⟨admits, clean⟩, admits, fix⟩⟩

/-- Where normalization succeeds, one more round would commit nothing. -/
theorem quiet_of_normalize (ended : (Pass.normalize.run limits g).outcome = .ok ()) :
    (normalizeRound limits).Quiet (Pass.normalize.run limits g).grammar () := by
  obtain ⟨ended, left⟩ := finish_ok ended
  rw [show (Pass.normalize.run limits g).grammar = _ from left]
  exact untilQuiet_ok (fun _ => traced_normalizeRound) ended

/-- The problems that are ruled out at the end settle what the passes leave open. -/
theorem normal_of_quiet (quiet : (normalizeRound limits).Quiet g ()) : g.Normal := by
  obtain ⟨_, cleaned, fixed⟩ := quiet_normalizeRound.mp quiet
  obtain ⟨_, plain, apart, _, settled⟩ := quiet_clean.mp cleaned
  obtain ⟨_, factored, _, problems⟩ := quiet_fix.mp fixed
  rcases problems_eq_nil_iff.mp problems with
    empty | ⟨_, spelled, ⟨start, started, reached⟩, acyclic⟩
  · exact .inl empty
  by_cases empty : g.rules = []
  · exact .inl empty
  obtain ⟨chosen, headed⟩ := requireStart_eq_ok.mp started
  refine .inr ⟨⟨start, chosen, headed empty⟩, plain, apart, ?_, spelled, acyclic, ?_, ?_⟩
  · intro first same
    obtain rfl : start = first := Option.some.inj (chosen.symm.trans same)
    exact reached
  · have none := (leadGroups_eq_ok.mp (quiet_factorSharedLeads.mp factored).2).2
    exact pairwise_iff_factored.mp (leadGroups_eq_nil_iff.mp none.symm)
  · exact fun rule member target unit =>
      (settled_iff acyclic member unit).mp (settled rule member target unit)

/-- What the passes ask of a grammar is part of the normal form. -/
theorem quiet_of_normal (normal : g.Normal) (admits : Admits limits.maxIterations)
    (growth : (limits.maxGrowth.times? (max g.rules.length 1)).isSome) :
    (normalizeRound limits).Quiet g () := by
  suffices facts : g.hasShorthand = false ∧ g.rules.Nodup ∧
      (g.rules = [] ∨ ∃ start, g.requireStart = .ok start ∧
        ∀ head ∈ g.heads, g.Reaches start head) ∧ g.Acyclic ∧
      g.heads.flatMap g.leadGroupsOf = [] ∧ g.problems = .ok [] ∧
      ∀ rule ∈ g.rules, ∀ target, rule.unit? = some target → g.Settled rule target by
    obtain ⟨plain, apart, reached, acyclic, factored, problems, settled⟩ := facts
    have none := leftRecursionCycles_eq_nil_iff.mpr ⟨plain, acyclic⟩
    have clean := quiet_clean.mpr ⟨admits, plain, apart, reached, settled⟩
    refine quiet_normalizeRound.mpr ⟨admits, clean,
      quiet_fix.mpr ⟨?_, ?_, quiet_removeUnreachable.mpr ⟨plain, reached⟩, problems⟩⟩
    · exact quiet_removeLeftRecursion.mpr ⟨admits, growth, [], none, by simp⟩
    · exact quiet_factorSharedLeads.mpr ⟨admits, leadGroups_eq_ok.mpr ⟨plain, factored.symm⟩⟩
  rcases normal with empty | form
  · have heads : g.heads = [] := by simp [heads, empty]
    exact ⟨by simp [hasShorthand, empty], by simp [empty], .inl empty, acyclic_of_empty empty,
      by simp [heads], problems_eq_nil_iff.mpr (.inl empty), by simp [empty]⟩
  · obtain ⟨start, chosen, headed⟩ := form.start
    have started : g.requireStart = .ok start := requireStart_eq_ok.mpr ⟨chosen, fun _ => headed⟩
    have reached : ∃ start, g.requireStart = .ok start ∧ ∀ head ∈ g.heads, g.Reaches start head :=
      ⟨start, started, form.reached start chosen⟩
    exact ⟨form.plain, form.distinct, .inr reached, form.acyclic,
      leadGroups_eq_nil_iff.mpr (pairwise_iff_factored.mpr form.factored),
      problems_eq_nil_iff.mpr (.inr ⟨form.plain, form.spelled, reached, form.acyclic⟩),
      fun rule member target unit =>
        (settled_iff form.acyclic member unit).mpr (form.units rule member target unit)⟩

end Editing

/-- Normalization leaves a normal grammar whenever it succeeds, and a normal grammar it leaves as it
is, without a record, as soon as it may go round once. -/
theorem Pass.normalize_normal (g : Grammar) :
    (∀ limits, (Pass.normalize.run limits g).outcome = .ok () →
      (Pass.normalize.run limits g).grammar.Normal) ∧
    ∀ rounds growth : Int, g.Normal → 1 ≤ rounds →
      let r := Pass.normalize.run (.ofCounts rounds growth) g
      r.outcome = .ok () ∧ r.records = [] ∧ r.grammar = g := by
  constructor
  · intro limits ended
    obtain ⟨ended, left⟩ := Editing.finish_ok ended
    rw [show (Pass.normalize.run limits g).grammar = _ from left]
    exact Editing.normal_of_quiet
      (Editing.untilQuiet_ok (fun _ => Editing.traced_normalizeRound) ended)
  · intro rounds growth normal positive
    have admits : Editing.Admits (Limits.ofCounts rounds growth).maxIterations :=
      ⟨rounds, rfl, positive⟩
    have rounds_quiet := Editing.quiet_of_normal normal admits rfl
    have traced {g : Grammar} : (Editing.untilQuiet .normalize (.ofCounts rounds growth)
        (Editing.normalizeRound (.ofCounts rounds growth))).Traced (fun _ => True) g :=
      Editing.traced_untilQuiet fun _ => Editing.traced_normalizeRound
    have quiet : (Editing.normalize (.ofCounts rounds growth)).Quiet g () := by
      rw [Editing.normalize, Editing.quiet_finish traced,
        Editing.quiet_untilQuiet fun _ => Editing.traced_normalizeRound]
      exact ⟨admits, rounds_quiet⟩
    exact ⟨quiet.1, quiet.2, quiet.grammar_eq Editing.traced_normalize⟩

/-- The cycle of `entwined` is removed, and what that leaves is in normal form and stays as it
is. -/
theorem Pass.normalize_entwined :
    let r := Pass.normalize.run (.ofCounts 8 8) entwined
    let s := Pass.normalize.run (.ofCounts 1 1) r.grammar
    (r.outcome = .ok () ∧ r.records.length = 3 ∧ r.grammar.rules.length = 5 ∧ r.grammar.Normal) ∧
      s.outcome = .ok () ∧ s.records = [] ∧ s.grammar = r.grammar := by
  have ended : (Pass.normalize.run (.ofCounts 8 8) entwined).outcome = .ok () := by cbv
  have normal := (Pass.normalize_normal entwined).1 _ ended
  exact ⟨⟨ended, by cbv, by cbv, normal⟩, (Pass.normalize_normal _).2 1 1 normal (by decide)⟩

end Ebnf
