import Mathlib.Data.Multiset.AddSub
import Ebnf.Proofs.Editing.Heads
import Ebnf.Proofs.Language.Closure

/-! The audit trail read as a list of edits. Replaying it on the rules of a grammar takes no notice
of their order: each record takes one occurrence of the rule that it names away and adds what that
rule was replaced by. The rules that the records of one change name are there together before the
change, so it does not matter in which order they are taken away, and what remains of the grammar is
not touched. A path is replayed change by change; all that one change has to know of the others is
that names made up for it are new to the rules that they added. -/
namespace Ebnf

/-- What a record adds. Alternatives that are factored share the rule they give way to and may share
suffixes as well, so a record of factoring adds only what no record before it has added. -/
def Record.adds (record : Record) (kind : Transformation) (added : List Rule) : List Rule :=
  if kind = .sharedLeads then record.replacements.filter (· ∉ added) else record.replacements

/-- The rules that records of a transformation lead to, if each of them finds the rule that it
names. The rules that earlier records added are given. -/
def replay (kind : Transformation) :
    (added : List Rule) → List Record → Multiset Rule → Option (Multiset Rule)
  | _, [], rules => some rules
  | added, record :: records, rules =>
    if record.replaced ∈ rules then
      replay kind (added ++ record.replacements) records
        (rules.erase record.replaced + record.adds kind added)
    else none

/-- What records add one after the other. -/
def addedBy (kind : Transformation) : (added : List Rule) → List Record → List Rule
  | _, [] => []
  | added, record :: records =>
    record.adds kind added ++ addedBy kind (added ++ record.replacements) records

/-- The records of a group that is factored. -/
def LeadGroup.records (group : LeadGroup) (fresh : Name) : List Record :=
  group.rules.map fun rule =>
    ⟨rule, [group.factored fresh, LeadGroup.suffix fresh rule], .prefixFactoring⟩

variable {kind : Transformation} {added old new : List Rule} {records : List Record}

theorem replay_append (first second : List Record) (rules : Multiset Rule) :
    replay kind added (first ++ second) rules = (replay kind added first rules).bind
      (replay kind (added ++ first.flatMap Record.replacements) second) := by
  induction first generalizing added rules with
  | nil => simp [replay]
  | cons record first ih =>
    rw [List.cons_append, replay, replay]
    split
    · rw [ih, List.flatMap_cons, List.append_assoc]
    · rfl

/-- Records that name rules which are all there can be replayed, and leave the others alone. -/
theorem replay_of_perm (rest : List Rule)
    (before : old.Perm (records.map Record.replaced ++ rest))
    (after : new.Perm (addedBy kind added records ++ rest)) :
    replay kind added records (old : Multiset Rule) = some (new : Multiset Rule) := by
  induction records generalizing added old rest with
  | nil => exact congrArg some (Multiset.coe_eq_coe.mpr (before.trans after.symm))
  | cons record records ih =>
    have present : record.replaced ∈ old := before.mem_iff.mpr List.mem_cons_self
    rw [replay, if_pos (Multiset.mem_coe.mpr present), Multiset.coe_erase, Multiset.coe_add]
    have left : (old.erase record.replaced).Perm (records.map Record.replaced ++ rest) := by
      simpa using before.erase record.replaced
    apply ih (rest ++ record.adds kind added)
    · rw [← List.append_assoc]
      exact left.append_right _
    · refine after.trans ?_
      rw [addedBy, ← List.append_assoc, List.append_assoc]
      exact List.perm_append_comm

theorem addedBy_eq_flatMap (other : kind ≠ .sharedLeads) :
    addedBy kind added records = records.flatMap Record.replacements := by
  induction records generalizing added with
  | nil => rfl
  | cons record records ih => rw [addedBy, Record.adds, if_neg other, ih, List.flatMap_cons]

/-- Records of factoring add each rule once. -/
theorem addedBy_sharedLeads (apart : ∀ record ∈ records, record.replacements.Nodup) :
    addedBy .sharedLeads added records =
      (records.flatMap Record.replacements).eraseDups.filter (· ∉ added) := by
  induction records generalizing added with
  | nil => rfl
  | cons record records ih =>
    rw [addedBy, ih fun r later => apart r (List.mem_cons_of_mem _ later), List.flatMap_cons,
      List.eraseDups_append, eraseDups_eq_self (apart record List.mem_cons_self), List.removeAll,
      eraseDups_filter, List.filter_append, List.filter_filter, Record.adds, if_pos rfl]
    simp

/-! What a change leaves of the rules, and what it takes away. -/

namespace Grammar

variable {g : Grammar} {head : Name} {rule : Rule} {rules : List Rule} {group : LeadGroup}

theorem repeatedAfter_perm {α : Type} [DecidableEq α] (seen xs : List α) :
    (repeatedAfter seen xs ++ xs.eraseDups.filter (· ∉ seen)).Perm xs := by
  induction xs generalizing seen with
  | nil => exact .nil
  | cons x xs ih =>
    rw [repeatedAfter, eraseDups_cons_filter, List.filter_cons, List.filter_filter]
    split
    · next again =>
      have kept : xs.eraseDups.filter (fun y => decide (y ∉ seen) && decide (y ≠ x)) =
          xs.eraseDups.filter (· ∉ seen) := by
        refine List.filter_congr fun y _ => ?_
        by_cases same : y = x
        · simp [same, again]
        · simp [same]
      rw [if_neg (by simpa using again), kept]
      exact (ih seen).cons x
    · next new =>
      have kept : xs.eraseDups.filter (fun y => decide (y ∉ seen) && decide (y ≠ x)) =
          xs.eraseDups.filter (· ∉ x :: seen) := by
        refine List.filter_congr fun y _ => ?_
        simp [Bool.and_comm]
      rw [if_pos (by simpa using new), kept]
      exact List.perm_middle.trans ((ih (x :: seen)).cons x)

theorem rules_perm_replaced (member : rule ∈ g.rules) :
    (g.replaced rule rules).rules.Perm (rules ++ g.rules.erase rule) :=
  replaceFirst_perm member

/-- The rules of a head are its loops, what its recursion starts from and what recurs. -/
theorem rules_perm_directRecursion (g : Grammar) (head : Name) :
    g.rules.Perm (g.loopsOf head ++ ((g.directRecursion head).base ++
      (g.directRecursion head).recursive) ++ g.rules.filter (·.head ≠ head)) := by
  have others : (g.rulesOf head ++ g.rules.filter (·.head ≠ head)).Perm g.rules := by
    simpa [rulesOf] using List.filter_append_perm (·.head = head) g.rules
  have based : (g.leftRecursiveRulesOf head ++ g.baseRulesOf head).Perm (g.rulesOf head) :=
    List.filter_append_perm Rule.isLeftRecursive (g.rulesOf head)
  have loops : (g.loopsOf head ++ (g.directRecursion head).recursive).Perm
      (g.leftRecursiveRulesOf head) := by
    simpa [loopsOf, directRecursion] using
      List.filter_append_perm (·.rest = []) (g.leftRecursiveRulesOf head)
  have parts := (loops.append_right (g.baseRulesOf head)).trans based
  refine (others.symm.trans (parts.symm.append_right _)).trans (.append_right _ ?_)
  rw [List.append_assoc]
  exact List.perm_append_comm.append_left _

theorem foldl_erase_perm {α : Type} [DecidableEq α] {removed xs rest : List α}
    (perm : xs.Perm (removed ++ rest)) : (removed.foldl List.erase xs).Perm rest := by
  induction removed generalizing xs with
  | nil => exact perm
  | cons a removed ih => exact ih (by simpa using perm.erase a)

/-- A group gives way to its replacements, and no other rule is touched. -/
theorem factored_perm (shared : group ∈ g.leadGroupsOf group.head) (fresh : Name) :
    ∃ rest, g.rules.Perm (group.rules ++ rest) ∧
      (g.factored group fresh).rules.Perm (group.replacements fresh ++ rest) := by
  obtain ⟨rest, split⟩ := (leadGroup_sublist shared).exists_perm_append
  refine ⟨rest, split, ?_⟩
  unfold factored
  cases parts : group.rules with
  | nil =>
    obtain ⟨_, _, _, several⟩ := mem_leadGroupsOf.mp shared
    simp [parts] at several
  | cons first others =>
    rw [parts] at split
    have member : first ∈ g.rules := split.mem_iff.mpr List.mem_cons_self
    have left : (g.rules.erase first).Perm (others ++ rest) := by simpa using split.erase first
    apply foldl_erase_perm
    refine (replaceFirst_perm member).trans ((left.append_left _).trans ?_)
    rw [← List.append_assoc, ← List.append_assoc]
    exact List.perm_append_comm.append_right _

theorem mem_replacements_iff {fresh : Name} (shared : group ∈ g.leadGroupsOf group.head) :
    rule ∈ (group.records fresh).flatMap Record.replacements ↔
      rule ∈ group.replacements fresh := by
  obtain ⟨first, member⟩ := exists_mem_leadGroup shared
  simp only [LeadGroup.records, List.flatMap_map, List.mem_flatMap, List.mem_cons,
    List.not_mem_nil, or_false, LeadGroup.replacements, List.mem_eraseDups, List.mem_map]
  constructor
  · rintro ⟨rule, inside, rfl | rfl⟩
    · exact .inl rfl
    · exact .inr ⟨rule, inside, rfl⟩
  · rintro (rfl | ⟨rule, inside, rfl⟩)
    · exact ⟨first, member, .inl rfl⟩
    · exact ⟨rule, inside, .inr rfl⟩

/-- The records of a group add its replacements, each of which has the fresh name in it and so
cannot have been added before. -/
theorem addedBy_factoring {fresh : Name} (shared : group ∈ g.leadGroupsOf group.head)
    (other : fresh ≠ group.head) (known : ∀ rule ∈ added, fresh ∉ rule.names) :
    (addedBy .sharedLeads added (group.records fresh)).Perm (group.replacements fresh) := by
  have apart (rule : Rule) : group.factored fresh ≠ LeadGroup.suffix fresh rule := by
    intro same
    have heads := congrArg Rule.head same
    simp [LeadGroup.factored, LeadGroup.suffix, other.symm] at heads
  rw [addedBy_sharedLeads (by simpa [LeadGroup.records] using fun rule _ => apart rule),
    List.filter_eq_self.mpr]
  · refine (List.perm_ext_iff_of_nodup (nodup_eraseDups _) ?_).mpr fun rule => ?_
    · refine List.nodup_cons.mpr ⟨?_, nodup_eraseDups _⟩
      rw [List.mem_eraseDups]
      simpa using fun rule _ same => apart rule same.symm
    · rw [List.mem_eraseDups, mem_replacements_iff shared]
  · intro rule member
    have new := fresh_mem_names_of_mem_replacements
      ((mem_replacements_iff shared).mp (List.mem_eraseDups.mp member))
    simpa using fun old => known rule old new

end Grammar

/-- The records of a direct recursion name its rules and account for all that take their place. -/
theorem DirectRecursion.replacements_split (d : DirectRecursion) (fresh : Name)
    (recursive : d.recursive ≠ []) : (d.replacements fresh).map Prod.fst = d.base ++ d.recursive ∧
      (d.replacements fresh).flatMap Prod.snd = d.rules fresh := by
  obtain ⟨base, recurring⟩ := d
  obtain ⟨init, last, rfl⟩ := (List.eq_nil_or_concat recurring).resolve_left recursive
  have singly (f : Rule → Rule) (xs : List Rule) : xs.flatMap (fun x => [f x]) = xs.map f :=
    List.map_eq_flatMap.symm
  simp [replacements, rules, List.flatMap_map, Function.comp_def, singly]

open Grammar Event

variable {among : Transformation → Prop} {g g' : Grammar} {events : List Event} {head : Name}
  {rule : Rule} {rules : List Rule}

/-! Changes. -/

theorem replay_replaced (other : kind ≠ .sharedLeads) (member : rule ∈ g.rules) (reason : Reason) :
    replay kind added [⟨rule, rules, reason⟩] (g.rules : Multiset Rule) =
      some ((g.replaced rule rules).rules : Multiset Rule) := by
  refine replay_of_perm (g.rules.erase rule) (List.perm_cons_erase member) ?_
  rw [addedBy_eq_flatMap other]
  simpa using rules_perm_replaced member

theorem flatMap_removed (removed : List Rule) (reason : Reason) :
    (removed.map fun rule => (⟨rule, [], reason⟩ : Record)).flatMap Record.replacements = [] :=
  List.flatMap_eq_nil_iff.mpr (by simp)

theorem replay_removed (other : kind ≠ .sharedLeads) {removed : List Rule} {reason : Reason}
    (split : g.rules.Perm (removed ++ g'.rules)) :
    replay kind added (removed.map (⟨·, [], reason⟩)) (g.rules : Multiset Rule) =
      some (g'.rules : Multiset Rule) := by
  refine replay_of_perm g'.rules ?_ ?_
  · simpa [List.map_map, Function.comp_def] using split
  · rw [addedBy_eq_flatMap other, flatMap_removed]
    rfl

theorem Transformation.ofLeftRecursion.ne_sharedLeads (kinds : kind.ofLeftRecursion) :
    kind ≠ .sharedLeads := by
  rintro rfl
  exact kinds

theorem Change.replay (change : Change kind g events g')
    (known : kind = .sharedLeads → ∀ rule ∈ added, ∀ n ∈ rule.names, n ∈ g.names) :
    replay kind added (events.filterMap record?) (g.rules : Multiset Rule) =
      some (g'.rules : Multiset Rule) := by
  cases change with
  | expansion member found => simpa using replay_replaced (by simp) member _
  | unit member unit other lost defined => simpa using replay_replaced (by simp) member _
  | @factoring _ group shared =>
    obtain ⟨rest, before, after⟩ := factored_perm shared (g.fresh group.head)
    have unused : ∀ rule ∈ added, g.fresh group.head ∉ rule.names := fun rule listed named =>
      g.fresh_notMem_names group.head (known rfl rule listed _ named)
    have adds := addedBy_factoring shared (g.fresh_ne group.head) unused
    simp only [List.cons_append, List.filterMap_cons_none, record?_minted, List.filterMap_append,
      filterMap_record?_map, record?_remarked, List.filterMap_nil, List.append_nil]
    refine replay_of_perm rest ?_ (after.trans (adds.symm.append_right rest))
    simpa [List.map_map, Function.comp_def] using before
  | @loops _ _ head kinds based recursive nothing =>
    rw [filterMap_record?_map]
    refine replay_removed kinds.ne_sharedLeads ?_
    have parts := rules_perm_directRecursion g head
    rw [nothing, List.append_nil, List.append_assoc] at parts
    exact parts.trans ((withRulesOf_perm (g.baseRulesOf head)).symm.append_left _)
  | @direct _ _ head kinds based recursive =>
    have parts := rules_perm_directRecursion g head
    obtain ⟨named, adds⟩ := (g.directRecursion head).replacements_split (g.continuation head)
      recursive
    simp only [List.filterMap_append, List.filterMap_cons_none, record?_minted, record?_remarked,
      filterMap_record?_map, List.filterMap_nil, List.append_nil]
    refine replay_of_perm (g.rules.filter (·.head ≠ head)) ?_ ?_
    · rw [← named] at parts
      simpa [List.map_map, Function.comp_def] using parts
    · rw [addedBy_eq_flatMap kinds.ne_sharedLeads, List.flatMap_append, flatMap_removed,
        List.nil_append, List.flatMap_map, adds]
      exact withRulesOf_perm _
  | substitution member closes indirect defined => simpa using replay_replaced (by simp) member _
  | @removal _ reached found dead =>
    have split : g.rules.Perm (g.dropped (· ∈ reached) ++ (g.retain (· ∈ reached)).rules) :=
      ((List.filter_append_perm (fun rule => decide (rule.head ∈ reached)) g.rules).symm).trans
        List.perm_append_comm
    simpa [filterMap_record?_map] using replay_removed (by simp) split
  | deduplication repeated =>
    rw [filterMap_record?_map]
    refine replay_removed (by simp) ?_
    simpa using (repeatedAfter_perm [] g.rules).symm
  | @augmentation _ start rule others started rules unaugmented =>
    have member : rule ∈ g.rules := (mem_rulesOf.mp (rules ▸ List.mem_cons_self)).1
    have perm := List.perm_cons_erase member
    simp only [List.filterMap_cons_none, record?_minted]
    refine replay_of_perm (g.rules.erase rule) perm ?_
    rw [addedBy_eq_flatMap (by simp)]
    exact perm.cons _

/-- Factoring keeps all names, and what its records add is in the grammar afterwards. -/
theorem Change.names_of_sharedLeads (change : Change .sharedLeads g events g') {n : Name}
    (named : n ∈ g.names ∨
      ∃ rule ∈ (events.filterMap record?).flatMap Record.replacements, n ∈ rule.names) :
    n ∈ g'.names := by
  cases change with
  | loops kinds | direct kinds => exact kinds.elim
  | @factoring _ group shared =>
    have unused := g.fresh_notMem_names group.head
    rcases named with old | ⟨rule, added, inside⟩
    · exact mem_names_factored shared unused old
    · simp only [List.cons_append, List.filterMap_cons_none, record?_minted, List.filterMap_append,
        filterMap_record?_map, record?_remarked, List.filterMap_nil, List.append_nil] at added
      have new := (mem_replacements_iff shared).mp added
      exact mem_names.mpr ⟨rule, mem_factored_of_mem shared unused new, inside⟩

/-- The records of a path of one transformation can be replayed, and lead to the rules it leads
to. -/
theorem Path.replay (path : Path (· = kind) g events g')
    (known : kind = .sharedLeads → ∀ rule ∈ added, ∀ n ∈ rule.names, n ∈ g.names) :
    replay kind added (events.filterMap record?) (g.rules : Multiset Rule) =
      some (g'.rules : Multiset Rule) := by
  induction path generalizing added with
  | refl => rfl
  | remark _ _ ih => simpa using ih known
  | next kinds change _ ih =>
    subst kinds
    rw [List.filterMap_append, replay_append, change.replay known, Option.bind_some]
    refine ih fun shared rule listed n inside => ?_
    subst shared
    refine change.names_of_sharedLeads ?_
    rcases List.mem_append.mp listed with old | new
    · exact .inl (known rfl rule old n inside)
    · exact .inr ⟨rule, new, inside⟩

end Ebnf
