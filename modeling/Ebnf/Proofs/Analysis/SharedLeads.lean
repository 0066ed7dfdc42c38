import Ebnf.Analysis.SharedLeads
import Ebnf.Proofs.Lookup

/-! The groups of alternatives that begin alike. A group is all rules with its head and its leading
symbol, so different groups have no rule in common and factoring one leaves the others as they
were. -/
namespace Ebnf.Grammar

variable {g : Grammar} {group : LeadGroup} {head : Name} {lead : Symbol}

theorem mem_leadsOf :
    lead ∈ g.leadsOf head ↔ (∃ rule ∈ g.rules, rule.head = head ∧ rule.lead = lead) ∧
      lead ≠ .epsilon := by
  simp [leadsOf, List.mem_eraseDups, and_assoc]

theorem mem_leadGroupsOf :
    group ∈ g.leadGroupsOf head ↔ group.head = head ∧ group.lead ≠ .epsilon ∧
      group.rules = (g.rulesOf head).filter (·.lead = group.lead) ∧ 1 < group.rules.length := by
  simp only [leadGroupsOf, List.mem_filter, List.mem_map, decide_eq_true_eq]
  constructor
  · rintro ⟨⟨lead, member, rfl⟩, several⟩
    exact ⟨rfl, (mem_leadsOf.mp member).2, rfl, several⟩
  · rintro ⟨rfl, visible, rules, several⟩
    refine ⟨⟨group.lead, mem_leadsOf.mpr ⟨?_, visible⟩, by rw [← rules]⟩, several⟩
    obtain ⟨rule, member⟩ := List.exists_mem_of_length_pos (Nat.zero_lt_of_lt several)
    rw [rules] at member
    obtain ⟨listed, same⟩ := List.mem_filter.mp member
    exact ⟨rule, (mem_rulesOf.mp listed).1, (mem_rulesOf.mp listed).2, by simpa using same⟩

theorem mem_rules_of_leadGroup {rule : Rule} (shared : group ∈ g.leadGroupsOf head)
    (member : rule ∈ group.rules) :
    rule ∈ g.rules ∧ rule.head = head ∧ rule.lead = group.lead := by
  obtain ⟨_, _, rules, _⟩ := mem_leadGroupsOf.mp shared
  rw [rules] at member
  simpa [and_assoc] using member

theorem visible_of_leadGroup {rule : Rule} (shared : group ∈ g.leadGroupsOf head)
    (member : rule ∈ group.rules) : rule.lead ≠ .epsilon := by
  rw [(mem_rules_of_leadGroup shared member).2.2]
  exact (mem_leadGroupsOf.mp shared).2.1

theorem leadGroup_sublist (shared : group ∈ g.leadGroupsOf head) :
    group.rules.Sublist g.rules := by
  obtain ⟨_, _, rules, _⟩ := mem_leadGroupsOf.mp shared
  rw [rules]
  exact List.filter_sublist.trans List.filter_sublist

theorem exists_mem_leadGroup (shared : group ∈ g.leadGroupsOf head) :
    ∃ rule, rule ∈ group.rules := by
  obtain ⟨_, _, _, several⟩ := mem_leadGroupsOf.mp shared
  exact List.exists_mem_of_length_pos (Nat.zero_lt_of_lt several)

theorem leadGroup_head_mem_heads (shared : group ∈ g.leadGroupsOf head) : head ∈ g.heads := by
  obtain ⟨rule, member⟩ := exists_mem_leadGroup shared
  obtain ⟨listed, rfl, _⟩ := mem_rules_of_leadGroup shared member
  exact head_mem_heads listed

theorem leadGroups_eq_ok {groups : List LeadGroup} : g.leadGroups = .ok groups ↔
    g.hasShorthand = false ∧ groups = g.heads.flatMap g.leadGroupsOf := by
  simp only [leadGroups, requirePlain]
  cases g.hasShorthand <;> simp [bind, Except.bind, pure, Except.pure, eq_comm]

/-- Two groups of the list differ in their head or in the symbol that they share. -/
theorem pairwise_leadGroups :
    (g.heads.flatMap g.leadGroupsOf).Pairwise fun a b => a.head ≠ b.head ∨ a.lead ≠ b.lead := by
  rw [List.pairwise_flatMap]
  constructor
  · intro head _
    refine List.Pairwise.filter _ (List.pairwise_map.mpr ?_)
    exact (nodup_eraseDups _).imp fun apart => .inr apart
  · refine nodup_heads.imp fun {h k} apart a left b right => .inl ?_
    rw [(mem_leadGroupsOf.mp left).1, (mem_leadGroupsOf.mp right).1]
    exact apart

end Ebnf.Grammar
