import Mathlib.Data.List.Perm.Subperm
import Ebnf.Pass.Program
import Ebnf.Proofs.Analysis.Cycles
import Ebnf.Proofs.Analysis.SharedLeads
import Ebnf.Proofs.Editing.Traced
import Ebnf.Proofs.Fresh

/-! Every pass goes by changes, from any grammar and with any limits, and also where it fails. The
transformations that work through a list made beforehand need to know that the list still fits the
grammar; the composite passes only put runs together. -/
namespace Ebnf

namespace Editing

open Grammar

variable {among : Transformation → Prop} {g : Grammar} {rule : Rule} {limits : Limits}

/-! Shorthand. -/

theorem run_expandRule_none (nothing : g.expansionOf? rule = none) :
    expandRule rule g = ⟨g, [], .ok ()⟩ := by
  simp [expandRule, nothing]

theorem run_expandRule {expansion : Expansion} (member : rule ∈ g.rules)
    (found : g.expansionOf? rule = some expansion) :
    expandRule rule g = ⟨g.replaced rule expansion.rules,
      [.minted expansion.fresh g,
        .remarked (.expanding expansion.shorthand rule expansion.fresh),
        .record .shorthand rule expansion.rules], .ok ()⟩ := by
  simp [expandRule, found, run_replace_bind _ member, commit, Event.record, Grammar.replaced]

/-- A round works through the rules there were before it. Each of them is still there when its turn
comes, as often as it occurs in what is left of the list. -/
theorem expandRule_step {rest : List Rule} (listed : (rule :: rest).Subperm g.rules) :
    (expandRule rule).Traced (· = .shorthand) g ∧
      ((expandRule rule g).outcome = .ok () → rest.Subperm (expandRule rule g).grammar.rules) := by
  have member : rule ∈ g.rules := listed.subset List.mem_cons_self
  unfold Traced
  cases found : g.expansionOf? rule with
  | none =>
    rw [run_expandRule_none found]
    exact ⟨.refl g, fun _ => (List.sublist_cons_self rule rest).subperm.trans listed⟩
  | some expansion =>
    rw [run_expandRule member found]
    refine ⟨.single rfl (.expansion member found), fun _ => ?_⟩
    have left : rest.Subperm (g.rules.erase rule) := by
      simpa using listed.erase rule
    exact (left.trans (List.sublist_append_right _ _).subperm).trans
      (replaceFirst_perm member).symm.subperm

theorem traced_expandRound : expandRound.Traced (· = .shorthand) g := by
  refine traced_current_bind ?_
  split
  · exact traced_pure _
  · refine traced_bind ?_ fun _ _ => traced_pure _
    exact traced_forM (fun rest g => rest.Subperm g.rules)
      (fun _ _ _ listed => expandRule_step listed) (List.Subperm.refl _)

theorem traced_expandShorthand : (expandShorthand limits).Traced (· = .shorthand) g :=
  traced_perform (traced_repeatUntil fun _ => traced_expandRound)

/-! Units. -/

theorem traced_expandUnit {aside : List Rule} {target : Name} (member : rule ∈ g.rules)
    (unit : rule.unit? = some target) : (expandUnit aside rule target).Traced (· = .units) g := by
  refine traced_current_bind ?_
  dsimp only
  split
  · exact traced_remark_bind _ (traced_pure _)
  · next other =>
    split
    · exact traced_remark_bind _ (traced_pure _)
    · next lost =>
      split
      · exact traced_pure _
      · next defined =>
        have change : Path (· = .units) g _ _ :=
          .single rfl (.unit member unit other lost defined)
        simpa [Traced, run_replace_bind _ member, commit, Event.record, Grammar.replaced]
          using change

theorem traced_expandIfUnit {aside : List Rule} :
    (expandIfUnit aside rule).Traced (· = .units) g := by
  refine traced_current_bind ?_
  split
  · next target unit =>
    split
    · next there => exact traced_expandUnit there.2 unit
    · exact traced_pure _
  · exact traced_pure _

theorem traced_unitRound {aside : List Rule} : (unitRound aside).Traced (· = .units) g := by
  refine traced_current_bind ?_
  refine traced_bind (traced_foldlM fun aside rule g => traced_expandIfUnit) fun aside _ => ?_
  refine traced_current_bind ?_
  split <;> exact traced_pure _

theorem traced_expandUnits : (expandUnits limits).Traced (· = .units) g :=
  traced_perform (traced_settle fun _ _ => traced_unitRound)

/-! Repeated and unreachable rules, and the start symbol. -/

theorem repeatedAfter_eq_nil_iff {α : Type} [DecidableEq α] {seen xs : List α} :
    repeatedAfter seen xs = [] ↔ xs.Nodup ∧ ∀ x ∈ xs, x ∉ seen := by
  induction xs generalizing seen with
  | nil => simp [repeatedAfter]
  | cons x xs ih =>
    rw [repeatedAfter]
    split
    · next again => simp [again]
    · next new =>
      rw [ih, List.nodup_cons]
      simp only [List.mem_cons, not_or, forall_eq_or_imp]
      constructor
      · rintro ⟨apart, others⟩
        exact ⟨⟨fun again => (others x again).1 rfl, apart⟩, new, fun y later => (others y later).2⟩
      · rintro ⟨⟨once, apart⟩, _, others⟩
        exact ⟨apart, fun y later => ⟨fun same => once (same ▸ later), others y later⟩⟩

theorem traced_dropRepeated : dropRepeated.Traced (· = .duplicates) g := by
  refine traced_current_bind ?_
  unfold Traced
  rw [run_forM_commit_bind]
  by_cases repeated : repeatedAfter [] g.rules = []
  · have same := eraseDups_eq_self (repeatedAfter_eq_nil_iff.mp repeated).1
    simpa [repeated, same] using Path.refl g
  · have change : Path (· = .duplicates) g _ _ := .single rfl (.deduplication repeated)
    simpa using change

theorem traced_removeDuplicates : removeDuplicates.Traced (· = .duplicates) g :=
  traced_perform traced_dropRepeated

theorem retain_eq_self {keep : Name → Bool} (nothing : g.dropped keep = []) :
    g.retain keep = g := by
  have all : g.rules.filter (fun rule => keep rule.head) = g.rules := by
    refine List.filter_eq_self.mpr fun rule member => ?_
    simpa using List.filter_eq_nil_iff.mp nothing rule member
  rw [Grammar.retain, all]

theorem traced_dropUnreachable : dropUnreachable.Traced (· = .unreachable) g := by
  refine traced_current_bind ?_
  split
  · exact traced_pure _
  · cases found : g.reachable with
    | error e => exact .refl g
    | ok reached =>
      unfold Traced
      simp only [mapError_ok, run_ofExcept_ok_bind, run_edit_bind]
      rw [run_forM_commit_bind]
      by_cases dead : g.dropped (· ∈ reached) = []
      · simpa [dead, retain_eq_self dead] using Path.refl g
      · have change : Path (· = .unreachable) g _ _ := .single rfl (.removal found dead)
        simpa [dead] using change

theorem traced_removeUnreachable : removeUnreachable.Traced (· = .unreachable) g :=
  traced_perform traced_dropUnreachable

theorem traced_augment : augment.Traced (· = .augmentation) g := by
  refine traced_current_bind ?_
  split
  · exact traced_pure _
  · refine traced_bind (traced_ofExcept _) fun start started => ?_
    have started := mapError_eq_ok.mp started
    rw [run_ofExcept]
    split
    · exact traced_fail _
    · next rule others rules =>
      split
      · exact traced_remark _
      · next unaugmented => exact .single rfl (.augmentation started rules unaugmented)

theorem traced_augmentStart : augmentStart.Traced (· = .augmentation) g :=
  traced_perform traced_augment

/-! Shared leads. -/

theorem run_forM_erase_bind {removed : List Rule} (listed : removed.Subperm g.rules)
    (f : Unit → Editing α) : (removed.forM erase >>= f) g =
      f () { g with rules := removed.foldl List.erase g.rules } := by
  suffices run : removed.forM erase g =
      ⟨{ g with rules := removed.foldl List.erase g.rules }, [], .ok ()⟩ by
    rw [run_bind_ok (a := ()) (congrArg Run.outcome run), run]
    rfl
  induction removed generalizing g with
  | nil => rfl
  | cons rule removed ih =>
    have member : rule ∈ g.rules := listed.subset List.mem_cons_self
    have left : removed.Subperm (g.rules.erase rule) := by simpa using listed.erase rule
    have done : erase rule g = ⟨{ g with rules := g.rules.erase rule }, [], .ok ()⟩ := by
      simp [erase, Grammar.erase, member, mapError_ok]
    rw [run_forM_cons, run_bind_ok (a := ()) (congrArg Run.outcome done), done, ih left]
    rfl

theorem run_factor {group : LeadGroup} (shared : group ∈ g.leadGroupsOf group.head) :
    factor group g = ⟨g.factored group (g.fresh group.head),
      .minted (g.fresh group.head) g :: group.rules.map (fun rule =>
          .record .sharedLeads rule [group.factored (g.fresh group.head),
            LeadGroup.suffix (g.fresh group.head) rule]) ++
        [.remarked (.factored group.lead group.rules.length group.head (g.fresh group.head))],
      .ok ()⟩ := by
  have listed := (leadGroup_sublist shared).subperm
  obtain ⟨head, lead, rules⟩ := group
  cases rules with
  | nil => simpa using (mem_leadGroupsOf.mp shared).2.2.2
  | cons first others =>
    have member : first ∈ g.rules := listed.subset List.mem_cons_self
    have left : others.Subperm (g.rules.erase first) := by simpa using listed.erase first
    have still (added : List Rule) : others.Subperm (replaceFirst first added g.rules) :=
      (left.trans (List.sublist_append_right _ _).subperm).trans
        (replaceFirst_perm member).symm.subperm
    unfold factor
    simp only [run_current_bind, run_tell_bind]
    rw [run_replace_bind _ member, run_forM_erase_bind (still _), run_forM_commit_bind]
    simp [factored]

/-- What another head says, or what begins with another symbol, is not touched when a group is
factored: the rules that go and those that come belong to the group or to the fresh name. -/
theorem filter_rulesOf_factored {group : LeadGroup} {fresh head : Name} {lead : Symbol}
    (shared : group ∈ g.leadGroupsOf group.head) (new : fresh ≠ head)
    (apart : group.head ≠ head ∨ group.lead ≠ lead) :
    ((g.factored group fresh).rulesOf head).filter (·.lead = lead) =
      (g.rulesOf head).filter (·.lead = lead) := by
  have outside : ∀ rule ∈ group.rules,
      (decide (rule.lead = lead) && decide (rule.head = head)) = false := by
    intro rule member
    obtain ⟨_, same, begins⟩ := mem_rules_of_leadGroup shared member
    simpa [same, begins, imp_iff_not_or, or_comm] using apart
  rw [rulesOf, rulesOf, List.filter_filter, List.filter_filter, factored]
  cases parts : group.rules with
  | nil => rfl
  | cons first others =>
    rw [parts] at outside
    simp only [Option.elim_some, List.head?_cons, List.tail_cons]
    rw [filter_foldl_erase fun rule member => outside rule (List.mem_cons_of_mem _ member)]
    refine filter_replaceFirst (outside first List.mem_cons_self) fun rule added => ?_
    rcases List.mem_cons.mp added with rfl | suffix
    · rw [Bool.and_eq_false_iff]
      exact apart.symm.imp decide_eq_false decide_eq_false
    · obtain ⟨origin, _, rfl⟩ := List.mem_map.mp (List.mem_eraseDups.mp suffix)
      simp [LeadGroup.suffix, new]

/-- The groups that come later are still groups. -/
theorem leadGroup_factored {group other : LeadGroup} (shared : group ∈ g.leadGroupsOf group.head)
    (later : other ∈ g.leadGroupsOf other.head)
    (apart : group.head ≠ other.head ∨ group.lead ≠ other.lead) :
    other ∈ (g.factored group (g.fresh group.head)).leadGroupsOf other.head := by
  obtain ⟨_, visible, rules, several⟩ := mem_leadGroupsOf.mp later
  have new : g.fresh group.head ≠ other.head := fun same =>
    g.fresh_notMem_names group.head
      (same ▸ mem_names_of_mem_heads (leadGroup_head_mem_heads later))
  have kept := filter_rulesOf_factored shared new apart
  exact mem_leadGroupsOf.mpr ⟨rfl, visible, rules.trans kept.symm, several⟩

/-- Groups that differ from each other and are all there. -/
def Shared (groups : List LeadGroup) (g : Grammar) : Prop :=
  groups.Pairwise (fun a b => a.head ≠ b.head ∨ a.lead ≠ b.lead) ∧
    ∀ group ∈ groups, group ∈ g.leadGroupsOf group.head

theorem shared_leadGroups : Shared (g.heads.flatMap g.leadGroupsOf) g := by
  refine ⟨pairwise_leadGroups, fun group member => ?_⟩
  obtain ⟨head, _, shared⟩ := List.mem_flatMap.mp member
  exact (mem_leadGroupsOf.mp shared).1 ▸ shared

/-- When one of them is factored, the others are still there. -/
theorem Shared.factored {group : LeadGroup} {rest : List LeadGroup}
    (shared : Shared (group :: rest) g) : Shared rest (g.factored group (g.fresh group.head)) := by
  obtain ⟨apart, groups⟩ := shared
  obtain ⟨others, apart⟩ := List.pairwise_cons.mp apart
  refine ⟨apart, fun other later => ?_⟩
  exact leadGroup_factored (groups group List.mem_cons_self)
    (groups other (List.mem_cons_of_mem _ later)) (others other later)

theorem traced_factorRound : factorRound.Traced (· = .sharedLeads) g := by
  refine traced_current_bind ?_
  refine traced_bind (traced_ofExcept _) fun groups listed => ?_
  obtain ⟨_, rfl⟩ := leadGroups_eq_ok.mp (mapError_eq_ok.mp listed)
  rw [run_ofExcept]
  split
  · exact traced_pure _
  · refine traced_bind ?_ fun _ _ => traced_pure _
    refine traced_forM Shared (fun group rest g shared => ?_) shared_leadGroups
    have listed := shared.2 group List.mem_cons_self
    unfold Traced
    rw [run_factor listed]
    exact ⟨.single rfl (.factoring listed), fun _ => shared.factored⟩

theorem traced_factorSharedLeads : (factorSharedLeads limits).Traced (· = .sharedLeads) g :=
  traced_perform (traced_repeatUntil fun _ => traced_factorRound)

/-! Left recursion. -/

theorem run_removeDirect_loops {kind : Transformation} {head : Name}
    (nothing : (g.directRecursion head).recursive = []) :
    removeDirect kind head (g.baseRulesOf head) (g.leftRecursiveRulesOf head) g =
      ⟨g.withRulesOf head (g.baseRulesOf head), (g.loopsOf head).map (.record kind · []),
        .ok ()⟩ := by
  have loops : (g.leftRecursiveRulesOf head).filter (·.rest ≠ []) = [] := nothing
  unfold removeDirect
  simp only [run_current_bind, run_edit_bind]
  rw [run_forM_commit_bind, if_pos loops]
  simp [Grammar.withRulesOf, Grammar.loopsOf]

theorem run_removeDirect {kind : Transformation} {head : Name}
    (recursive : (g.directRecursion head).recursive ≠ []) :
    removeDirect kind head (g.baseRulesOf head) (g.leftRecursiveRulesOf head) g =
      ⟨g.withRulesOf head ((g.directRecursion head).rules (g.continuation head)),
        (g.loopsOf head).map (.record kind · []) ++ .minted (g.continuation head) g ::
          ((g.directRecursion head).replacements (g.continuation head)).map
            (fun entry => .record kind entry.1 entry.2) ++
          [.remarked (.directRemoved head (g.continuation head))], .ok ()⟩ := by
  have recursive : (g.leftRecursiveRulesOf head).filter (·.rest ≠ []) ≠ [] := recursive
  unfold removeDirect
  simp only [run_current_bind, run_edit_bind]
  rw [run_forM_commit_bind, if_neg recursive]
  simp only [run_current_bind, run_tell_bind]
  rw [run_forM_commit_bind]
  simp [Grammar.withRulesOf, Grammar.loopsOf, Grammar.continuation, Grammar.directRecursion]

theorem traced_eliminateDirect {kind : Transformation} {allow : Bool} {head : Name}
    (kinds : kind.ofLeftRecursion) : (eliminateDirect kind allow head).Traced (· = kind) g := by
  refine traced_current_bind ?_
  dsimp only
  split
  · exact traced_pure _
  · next recursive =>
    split
    · next based =>
      unfold Traced
      by_cases nothing : (g.directRecursion head).recursive = []
      · rw [run_removeDirect_loops nothing]
        exact .single rfl (.loops kinds based recursive nothing)
      · rw [run_removeDirect nothing]
        exact .single rfl (.direct kinds based nothing)
    · split
      · exact traced_remark _
      · exact traced_fail _

theorem traced_eliminateDirectOnce {kind : Transformation} {allow : Bool}
    (kinds : kind.ofLeftRecursion) : (eliminateDirectOnce kind allow).Traced (· = kind) g :=
  traced_current_bind <| traced_forM (fun _ _ => True)
    (fun _ _ _ _ => ⟨traced_eliminateDirect kinds, fun _ => trivial⟩) trivial

theorem traced_leftRecursionRound : leftRecursionRound.Traced (· = .leftRecursionRound) g :=
  traced_perform (traced_eliminateDirectOnce trivial)

theorem traced_directRound : directRound.Traced (· = .directLeftRecursion) g := by
  refine traced_current_bind ?_
  split
  · exact traced_bind (traced_eliminateDirectOnce trivial) fun _ _ => traced_pure _
  · exact traced_pure _

theorem traced_removeDirectLeftRecursion :
    (removeDirectLeftRecursion limits).Traced (· = .directLeftRecursion) g :=
  traced_perform (traced_repeatUntil fun _ => traced_directRound)

theorem run_substitute {c : Cycle} (member : c.last.rule ∈ g.rules)
    (closes : c.last.rule.lead = .nonTerminal c.root) (defined : g.rulesOf c.root ≠ []) :
    substitute c g = ⟨g.replaced c.last.rule (g.substitution c.root c.last.rule),
      [.record .leftRecursion c.last.rule (g.substitution c.root c.last.rule),
        .remarked (.substituted c.root c.last.rule)], .ok ()⟩ := by
  unfold substitute
  simp only [run_current_bind]
  rw [if_neg (not_not.mpr closes), if_neg defined, run_replace_bind _ member, run_commit_bind]
  rfl

theorem traced_checkSize {limit : Document} : (checkSize limit).Traced among g := by
  refine traced_current_bind ?_
  split
  · exact traced_fail _
  · exact traced_pure _
  · exact traced_fail _

/-- Only cycles whose root has another alternative are looked at, so there is something to put in
the place of the root. -/
theorem traced_cycleRound {largest : Document} :
    (cycleRound largest).Traced (· = .leftRecursion) g := by
  refine traced_current_bind ?_
  refine traced_bind (traced_ofExcept _) fun cycles listed => ?_
  obtain ⟨_, sound⟩ := leftRecursionCycles_sound listed
  rw [run_ofExcept]
  split
  · exact traced_pure _
  · next first others kept =>
    have member : first ∈ cycles.filter fun c => g.hasBaseCase c.root := by simp [kept]
    obtain ⟨known, based⟩ := List.mem_filter.mp member
    refine traced_bind ?_ fun _ _ => traced_bind traced_checkSize fun _ _ => traced_pure _
    unfold breakCycle
    split
    · exact traced_eliminateDirect trivial
    · next indirect =>
      have indirect : first.isDirect = false := by
        simpa using List.find?_eq_none.mp indirect first List.mem_cons_self
      obtain ⟨rule, closes, other⟩ := Cycle.closing (sound first known) indirect
      have defined : g.rulesOf first.root ≠ [] := by
        intro nothing
        simp [hasBaseCase, nothing] at based
      unfold Traced
      rw [run_substitute rule closes defined]
      exact .single rfl (.substitution rule closes other defined)

theorem traced_resolveCycles : (resolveCycles limits).Traced (· = .leftRecursion) g := by
  refine traced_current_bind ?_
  split
  · exact traced_fail _
  · exact traced_repeatUntil fun _ => traced_cycleRound

theorem traced_removeLeftRecursion :
    (removeLeftRecursion limits).Traced (· = .leftRecursion) g :=
  traced_perform traced_resolveCycles

/-! Composite passes. -/

theorem traced_stage {pass : Pass} {work : Editing Unit} (h : work.Traced among g) :
    (stage pass work).Traced among g :=
  traced_bind (traced_recorded h) fun _ _ => traced_remark _

theorem traced_untilQuiet {pass : Pass} {work : Editing Unit} (h : ∀ g, work.Traced among g) :
    (untilQuiet pass limits work).Traced among g :=
  traced_repeatUntil fun g => traced_bind (traced_recorded (h g)) fun _ _ => traced_pure _

theorem traced_finish {pass : Pass} {work : Editing Unit} (h : work.Traced among g) :
    (finish pass work).Traced among g :=
  traced_bind (traced_recorded h) fun _ _ => traced_current_bind (traced_remark _)

theorem traced_forM_remark {α : Type} {r : α → Remark} {xs : List α} :
    (xs.forM fun x => remark (r x)).Traced among g :=
  traced_forM (fun _ _ => True) (fun x _ _ _ => ⟨traced_remark (r x), fun _ => trivial⟩)
    trivial

theorem traced_rejectIfAny {problems : List Diagnostic} :
    (rejectIfAny problems).Traced among g := by
  unfold rejectIfAny
  split
  · exact traced_pure _
  · exact traced_fail _

/-- Cleaning takes out shorthand first and tidies up after that. -/
theorem traced_clean_stages :
    (clean limits).Traced (fun kind => kind = .shorthand ∨ kind.Tidies) g := by
  refine traced_bind (traced_stage (traced_expandShorthand.among_of_eq (.inl rfl))) fun _ _ => ?_
  refine traced_bind (traced_stage (traced_removeUnreachable.among_of_eq (.inr trivial)))
    fun _ _ => ?_
  refine traced_bind (traced_stage (traced_bind (traced_expandUnits.among_of_eq (.inr trivial))
    fun _ _ => traced_pure _)) fun _ _ => ?_
  refine traced_bind (traced_stage (traced_removeDuplicates.among_of_eq (.inr trivial)))
    fun _ _ => ?_
  exact traced_stage (traced_removeUnreachable.among_of_eq (.inr trivial))

theorem traced_clean : (clean limits).Traced (fun kind => ¬ kind.ofLeftRecursion) g := by
  refine traced_clean_stages.mono ?_
  rintro kind (rfl | tidies)
  · exact id
  · exact tidies.not_ofLeftRecursion

theorem traced_fix : (fix limits).Traced (fun _ => True) g := by
  refine traced_bind (traced_stage (traced_removeLeftRecursion.among_of_eq trivial)) fun _ _ => ?_
  refine traced_bind (traced_stage (traced_factorSharedLeads.among_of_eq trivial)) fun _ _ => ?_
  refine traced_bind (traced_stage (traced_removeUnreachable.among_of_eq trivial)) fun _ _ => ?_
  refine traced_current_bind (traced_bind (traced_ofExcept _) fun _ _ => ?_)
  exact traced_bind traced_forM_remark fun _ _ => traced_rejectIfAny

theorem traced_normalizeRound : (normalizeRound limits).Traced (fun _ => True) g :=
  traced_bind (traced_stage (traced_untilQuiet fun _ => traced_clean.mono fun _ _ => trivial))
    fun _ _ => traced_stage (traced_untilQuiet fun _ => traced_fix)

theorem traced_normalize : (normalize limits).Traced (fun _ => True) g :=
  traced_finish (traced_untilQuiet fun _ => traced_normalizeRound)

theorem traced_prepareLR1 : (prepareLR1 limits).Traced (fun kind => ¬ kind.ofLeftRecursion) g := by
  refine traced_finish ?_
  refine traced_bind (traced_stage (traced_expandShorthand.among_of_eq id)) fun _ _ => ?_
  refine traced_bind (traced_stage (traced_augmentStart.among_of_eq id)) fun _ _ => ?_
  exact traced_current_bind (traced_bind (traced_ofExcept _) fun _ _ => traced_rejectIfAny)

theorem traced_single (t : Transformation) :
    ((Pass.single t).program limits).Traced (· = t) g := by
  cases t with
  | shorthand => exact traced_expandShorthand
  | leftRecursion => exact traced_removeLeftRecursion
  | leftRecursionRound => exact traced_leftRecursionRound
  | directLeftRecursion => exact traced_removeDirectLeftRecursion
  | sharedLeads => exact traced_factorSharedLeads
  | unreachable => exact traced_removeUnreachable
  | units => exact traced_bind traced_expandUnits fun _ _ => traced_pure _
  | duplicates => exact traced_removeDuplicates
  | augmentation => exact traced_augmentStart

end Editing

/-- Every pass leads from the grammar it is run on to the one it leaves by changes, told by its
events, whether it succeeds or fails. -/
theorem Pass.run_path (pass : Pass) (limits : Limits) (g : Grammar) :
    Path (fun _ => True) g (pass.run limits g).events (pass.run limits g).grammar := by
  cases pass with
  | single t => exact (Editing.traced_single t).among_of_eq trivial
  | clean => exact Editing.traced_clean.mono fun _ _ => trivial
  | cleanUntilQuiet =>
    exact (Editing.traced_untilQuiet fun _ => Editing.traced_clean).mono fun _ _ => trivial
  | fix => exact Editing.traced_fix
  | fixUntilQuiet => exact Editing.traced_untilQuiet fun _ => Editing.traced_fix
  | normalize => exact Editing.traced_normalize
  | prepareLR1 => exact Editing.traced_prepareLR1.mono fun _ _ => trivial

end Ebnf
