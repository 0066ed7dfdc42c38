import Ebnf.Proofs.Analysis.Reachability
import Ebnf.Proofs.Language.Rewriting
import Ebnf.Proofs.Language.Shorthand

/-! Names stay defined. A change takes the last rule of a head away only where the head cannot be
reached, and the only name it brings in is a fresh one that it gives rules. -/
namespace Ebnf

namespace Grammar

/-- Every name in the rules heads a rule. -/
def Defined (g : Grammar) : Prop := ∀ name ∈ g.names, name ∈ g.heads

variable {g g' : Grammar} {n fresh head root : Name} {rule r : Rule} {rules : List Rule}

theorem Defined.of_mem_body (defined : g.Defined) (member : rule ∈ g.rules)
    (named : n ∈ Symbol.namesIn rule.body) : n ∈ g.heads :=
  defined n (mem_names.mpr ⟨rule, member, List.mem_cons_of_mem _ named⟩)

/-- Only the rules of a head can mention the name that continues it. -/
theorem head_eq_of_mem_names_continuation (member : rule ∈ g.rules)
    (named : g.continuation head ∈ rule.names) : rule.head = head := by
  by_contra different
  refine (g.retain (· ≠ head)).fresh_notMem_names head (mem_names.mpr ⟨rule, ?_, named⟩)
  exact List.mem_filter.mpr ⟨member, by simpa using different⟩

theorem continuation_notMem_heads : g.continuation head ∉ g.heads := by
  intro headed
  obtain ⟨rule, member, same⟩ := mem_heads.mp headed
  have named : g.continuation head ∈ rule.names := List.mem_cons.mpr (.inl same.symm)
  exact (g.retain (· ≠ head)).fresh_ne head
    (same.symm.trans (head_eq_of_mem_names_continuation member named))

theorem continuation_notMem_names (defined : g.Defined) : g.continuation head ∉ g.names :=
  fun named => continuation_notMem_heads (defined _ named)

/-! Heads. -/

theorem mem_heads_replaced (new : r ∈ rules) (same : r.head = rule.head) (headed : n ∈ g.heads) :
    n ∈ (g.replaced rule rules).heads := by
  obtain ⟨old, member, rfl⟩ := mem_heads.mp headed
  by_cases equal : old = rule
  · exact mem_heads.mpr ⟨r, (mem_replaced (equal ▸ member)).mpr (.inl new), by rw [same, equal]⟩
  · exact head_mem_heads (mem_replaced_of_ne member equal)

theorem mem_heads_factored {group : LeadGroup} (shared : group ∈ g.leadGroupsOf group.head)
    (unused : fresh ∉ g.names) (headed : n ∈ g.heads) : n ∈ (g.factored group fresh).heads := by
  obtain ⟨old, member, rfl⟩ := mem_heads.mp headed
  by_cases inside : old ∈ group.rules
  · rw [(mem_rules_of_leadGroup shared inside).2.1]
    exact head_mem_heads (mem_factored_of_mem shared unused List.mem_cons_self)
  · exact head_mem_heads (mem_factored_of_notMem member inside)

theorem fresh_mem_heads_factored {group : LeadGroup} (shared : group ∈ g.leadGroupsOf group.head)
    (unused : fresh ∉ g.names) : fresh ∈ (g.factored group fresh).heads := by
  obtain ⟨rule, member⟩ := exists_mem_leadGroup shared
  have suffix : LeadGroup.suffix fresh rule ∈ group.replacements fresh :=
    List.mem_cons_of_mem _ (List.mem_eraseDups.mpr (List.mem_map.mpr ⟨rule, member, rfl⟩))
  exact mem_heads.mpr ⟨_, mem_factored_of_mem shared unused suffix, Rule.head_ofBody _ _⟩

theorem mem_heads_withRulesOf (new : r ∈ rules) (same : r.head = head) (headed : n ∈ g.heads) :
    n ∈ (g.withRulesOf head rules).heads := by
  obtain ⟨old, member, rfl⟩ := mem_heads.mp headed
  by_cases equal : old.head = head
  · exact mem_heads.mpr ⟨r, mem_withRulesOf.mpr (.inl new), by rw [same, equal]⟩
  · exact head_mem_heads (mem_withRulesOf.mpr (.inr ⟨member, equal⟩))

theorem exists_closing (based : g.baseRulesOf head ≠ []) :
    ∃ r ∈ (g.directRecursion head).rules fresh, r.head = head := by
  obtain ⟨base, listed⟩ := List.exists_mem_of_ne_nil _ based
  exact ⟨_, mem_directRecursion_rules.mpr (.inl ⟨base, listed, rfl⟩),
    head_closing.trans (mem_baseRulesOf.mp listed).1.2⟩

theorem ending_mem_withRulesOf : DirectRecursion.ending fresh ∈
    (g.withRulesOf head ((g.directRecursion head).rules fresh)).rules :=
  mem_withRulesOf.mpr (.inl (mem_directRecursion_rules.mpr (.inr (.inr rfl))))

theorem fresh_mem_heads_expanded {expansion : Expansion} (member : rule ∈ g.rules)
    (found : g.expansionOf? rule = some expansion) :
    expansion.fresh ∈ (g.replaced rule expansion.rules).heads := by
  obtain ⟨_, _, _, _, _, rules⟩ := expansionOf?_eq_some found
  obtain ⟨items, listed⟩ :=
    List.exists_mem_of_ne_nil _ (expansion.shorthand.expansion_ne_nil expansion.fresh)
  have new : Rule.ofItems expansion.fresh items ∈ expansion.rules := by
    rw [rules]
    exact List.mem_cons_of_mem _ (List.mem_map.mpr ⟨items, listed, rfl⟩)
  exact mem_heads.mpr ⟨_, (mem_replaced member).mpr (.inl new), Rule.head_ofBody _ _⟩

/-! Names. -/

theorem mem_names_of_mem_expansion {expansion : Expansion} (member : rule ∈ g.rules)
    (found : g.expansionOf? rule = some expansion) (new : r ∈ expansion.rules)
    (named : n ∈ r.names) : n ∈ g.names ∨ n = expansion.fresh := by
  obtain ⟨_, before, after, body, _, rules⟩ := expansionOf?_eq_some found
  have known (inside : n ∈ rule.names) : n ∈ g.names ∨ n = expansion.fresh :=
    .inl (mem_names.mpr ⟨rule, member, inside⟩)
  have part (inside : n ∈ Symbol.namesIn before ∨ n ∈ expansion.shorthand.names ∨
      n ∈ Symbol.namesIn after) : n ∈ g.names ∨ n = expansion.fresh :=
    known (List.mem_cons_of_mem _ (by simpa [body] using inside))
  rw [rules] at new
  rcases List.mem_cons.mp new with rfl | rest
  · rcases Rule.mem_names_ofBody.mp named with rfl | inside
    · exact known List.mem_cons_self
    · simp only [Symbol.mem_namesIn_append, Symbol.mem_namesIn_cons,
        Symbol.mem_names_nonTerminal] at inside
      rcases inside with front | same | back
      · exact part (.inl front)
      · exact .inr same
      · exact part (.inr (.inr back))
  · obtain ⟨items, listed, rfl⟩ := List.mem_map.mp rest
    rcases Rule.mem_names_ofBody.mp named with same | inside
    · exact .inr same
    · rcases Symbol.mem_names_of_mem_expansion listed
        (Sentence.mem_namesIn_of_mem_ofItems inside) with same | within
      · exact .inr same
      · exact part (.inr (.inl within))

/-- No name is lost where a rule gives way to others, if the names of that rule are still there. -/
theorem mem_names_replaced (kept : ∀ m ∈ rule.names, m ∈ (g.replaced rule rules).names)
    (named : n ∈ g.names) : n ∈ (g.replaced rule rules).names := by
  obtain ⟨r, member, inside⟩ := mem_names.mp named
  by_cases same : r = rule
  · exact kept n (same ▸ inside)
  · exact mem_names.mpr ⟨r, mem_replaced_of_ne member same, inside⟩

theorem mem_names_expanded {expansion : Expansion} (member : rule ∈ g.rules)
    (found : g.expansionOf? rule = some expansion) (named : n ∈ g.names) :
    n ∈ (g.replaced rule expansion.rules).names := by
  obtain ⟨_, before, after, body, _, rules⟩ := expansionOf?_eq_some found
  have added {r : Rule} (new : r ∈ expansion.rules) {m : Name} (inside : m ∈ r.names) :
      m ∈ (g.replaced rule expansion.rules).names :=
    mem_names.mpr ⟨r, (mem_replaced member).mpr (.inl new), inside⟩
  refine mem_names_replaced (fun m inside => ?_) named
  have parts : m = rule.head ∨ m ∈ Symbol.namesIn before ∨ m ∈ expansion.shorthand.names ∨
      m ∈ Symbol.namesIn after := by
    simpa [Rule.names, body] using inside
  have around (outside : m = rule.head ∨ m ∈ Symbol.namesIn before ∨ m ∈ Symbol.namesIn after) :
      m ∈ (g.replaced rule expansion.rules).names := by
    refine added (rules ▸ List.mem_cons_self) (Rule.mem_names_ofBody.mpr ?_)
    simpa only [Symbol.mem_namesIn_append, Symbol.mem_namesIn_cons] using
      outside.imp_right (Or.imp_right .inr)
  rcases parts with head | front | within | back
  · exact around (.inl head)
  · exact around (.inr (.inl front))
  · obtain ⟨items, listed, there⟩ := Symbol.exists_mem_expansion expansion.fresh within
    have new : Rule.ofItems expansion.fresh items ∈ expansion.rules := by
      rw [rules]
      exact List.mem_cons_of_mem _ (List.mem_map.mpr ⟨items, listed, rfl⟩)
    exact added new (Rule.mem_names_ofBody.mpr (.inr (Sentence.mem_namesIn_ofItems there)))
  · exact around (.inr (.inr back))

theorem mem_names_of_mem_unitExpansion (member : rule ∈ g.rules)
    (new : r ∈ g.unitExpansion rule root) (named : n ∈ r.names) : n ∈ g.names := by
  obtain ⟨alternative, listed, rfl⟩ := List.mem_map.mp new
  rcases List.mem_cons.mp named with rfl | inside
  · exact mem_names.mpr ⟨rule, member, List.mem_cons_self⟩
  · exact mem_names.mpr ⟨alternative, (mem_rulesOf.mp listed).1, List.mem_cons_of_mem _ inside⟩

theorem mem_names_of_mem_substitution (member : rule ∈ g.rules)
    (new : r ∈ g.substitution root rule) (named : n ∈ r.names) : n ∈ g.names := by
  obtain ⟨alternative, listed, rfl⟩ := List.mem_map.mp (List.mem_eraseDups.mp new)
  rcases Rule.mem_names_ofBody.mp named with rfl | inside
  · exact mem_names.mpr ⟨rule, member, List.mem_cons_self⟩
  · rw [Sentence.mem_namesIn_strip, Symbol.mem_namesIn_append] at inside
    rcases inside with front | back
    · exact mem_names.mpr ⟨alternative, (mem_rulesOf.mp listed).1, List.mem_cons_of_mem _ front⟩
    · exact mem_names.mpr ⟨rule, member, List.mem_cons_of_mem _ (List.mem_append_right _ back)⟩

theorem mem_names_of_mem_replacements {group : LeadGroup}
    (shared : group ∈ g.leadGroupsOf group.head) (new : r ∈ group.replacements fresh)
    (named : n ∈ r.names) : n ∈ g.names ∨ n = fresh := by
  have known {rule : Rule} (member : rule ∈ group.rules) (inside : n ∈ rule.names) :
      n ∈ g.names ∨ n = fresh :=
    .inl (mem_names.mpr ⟨rule, (mem_rules_of_leadGroup shared member).1, inside⟩)
  rcases List.mem_cons.mp new with rfl | suffix
  · obtain ⟨rule, member⟩ := exists_mem_leadGroup shared
    obtain ⟨_, head, lead⟩ := mem_rules_of_leadGroup shared member
    have inside : (n = rule.head ∨ n ∈ rule.lead.names) ∨ n = fresh := by
      simpa [LeadGroup.factored, Rule.names, Rule.body, head, lead, or_assoc] using named
    refine inside.elim (fun old => known member ?_) .inr
    simpa [Rule.names, Rule.body, or_assoc] using Or.inl (b := n ∈ Symbol.namesIn rule.rest) old
  · obtain ⟨rule, member, rfl⟩ := List.mem_map.mp (List.mem_eraseDups.mp suffix)
    rcases Rule.mem_names_ofBody.mp named with same | inside
    · exact .inr same
    · rw [Sentence.mem_namesIn_strip] at inside
      exact known member (List.mem_cons_of_mem _ (List.mem_append_right _ inside))

/-- No name is lost where a group gives way to its replacements. -/
theorem mem_names_factored {group : LeadGroup} (shared : group ∈ g.leadGroupsOf group.head)
    (unused : fresh ∉ g.names) (named : n ∈ g.names) : n ∈ (g.factored group fresh).names := by
  obtain ⟨rule, member, inside⟩ := mem_names.mp named
  by_cases grouped : rule ∈ group.rules
  · obtain ⟨_, head, lead⟩ := mem_rules_of_leadGroup shared grouped
    have suffix : LeadGroup.suffix fresh rule ∈ group.replacements fresh :=
      List.mem_cons_of_mem _ (List.mem_eraseDups.mpr (List.mem_map.mpr ⟨rule, grouped, rfl⟩))
    have parts : (n = group.head ∨ n ∈ group.lead.names) ∨ n ∈ Symbol.namesIn rule.rest := by
      simpa [Rule.names, Rule.body, head, lead, or_assoc] using inside
    rcases parts with front | back
    · refine mem_names.mpr ⟨_, mem_factored_of_mem shared unused List.mem_cons_self, ?_⟩
      simpa [LeadGroup.factored, Rule.names, Rule.body, or_assoc] using Or.inl front
    · refine mem_names.mpr ⟨_, mem_factored_of_mem shared unused suffix, ?_⟩
      exact Rule.mem_names_ofBody.mpr (.inr (Sentence.mem_namesIn_strip.mpr back))
  · exact mem_names.mpr ⟨rule, mem_factored_of_notMem member grouped, inside⟩

theorem mem_names_of_mem_directRecursion (new : r ∈ (g.directRecursion head).rules fresh)
    (named : n ∈ r.names) : n ∈ g.names ∨ n = fresh := by
  rcases mem_directRecursion_rules.mp new with ⟨base, listed, rfl⟩ | ⟨tail, listed, rfl⟩ | rfl
  · have member := (mem_baseRulesOf.mp listed).1.1
    rcases Rule.mem_names_ofBody.mp named with rfl | inside
    · exact .inl (mem_names.mpr ⟨base, member, List.mem_cons_self⟩)
    · simp only [Sentence.mem_namesIn_strip, Symbol.mem_namesIn_append, Symbol.mem_namesIn_cons,
        Symbol.mem_names_nonTerminal, Symbol.notMem_namesIn_nil, or_false] at inside
      exact inside.imp_left fun old =>
        mem_names.mpr ⟨base, member, List.mem_cons_of_mem _ old⟩
  · have member := (mem_directRecursion_recursive.mp listed).1.1.1
    rcases Rule.mem_names_ofBody.mp named with same | inside
    · exact .inr same
    · simp only [Sentence.mem_namesIn_strip, Symbol.mem_namesIn_append, Symbol.mem_namesIn_cons,
        Symbol.mem_names_nonTerminal, Symbol.notMem_namesIn_nil, or_false] at inside
      exact inside.imp_left fun old => mem_names.mpr
        ⟨tail, member, List.mem_cons_of_mem _ (List.mem_append_right _ old)⟩
  · simp [DirectRecursion.ending, Rule.names, Rule.body] at named
    exact .inr named

/-- No name is lost where the rules of a head give way to others, if the names of those rules are
still there. -/
theorem mem_names_withRulesOf
    (kept : ∀ r ∈ g.rulesOf head, ∀ m ∈ r.names, m ∈ (g.withRulesOf head rules).names)
    (named : n ∈ g.names) : n ∈ (g.withRulesOf head rules).names := by
  obtain ⟨r, member, inside⟩ := mem_names.mp named
  by_cases same : r.head = head
  · exact kept r (mem_rulesOf.mpr ⟨member, same⟩) n inside
  · exact mem_names.mpr ⟨r, mem_withRulesOf.mpr (.inr ⟨member, same⟩), inside⟩

theorem mem_names_of_recursive (recursive : r ∈ g.leftRecursiveRulesOf head)
    (inside : n ∈ r.names) : n = head ∨ n ∈ Symbol.namesIn r.rest := by
  obtain ⟨⟨_, rfl⟩, loop⟩ := mem_leftRecursiveRulesOf.mp recursive
  simpa [Rule.names, Rule.body, Rule.isLeftRecursive_iff.mp loop] using inside

/-- Direct left recursion is taken out without the loss of a name. -/
theorem mem_names_direct (based : g.baseRulesOf head ≠ []) (named : n ∈ g.names) :
    n ∈ (g.withRulesOf head ((g.directRecursion head).rules fresh)).names := by
  have added {r : Rule} (new : r ∈ (g.directRecursion head).rules fresh) {m : Name}
      (inside : m ∈ r.names) :
      m ∈ (g.withRulesOf head ((g.directRecursion head).rules fresh)).names :=
    mem_names.mpr ⟨r, mem_withRulesOf.mpr (.inl new), inside⟩
  have headed : head ∈ (g.withRulesOf head ((g.directRecursion head).rules fresh)).names := by
    obtain ⟨r, new, same⟩ := exists_closing based
    exact added new (List.mem_cons.mpr (.inl same.symm))
  refine mem_names_withRulesOf (fun r listed m inside => ?_) named
  by_cases loop : r.isLeftRecursive = true
  · have recursive : r ∈ g.leftRecursiveRulesOf head := List.mem_filter.mpr ⟨listed, loop⟩
    rcases mem_names_of_recursive recursive inside with rfl | behind
    · exact headed
    · have some : r.rest ≠ [] := by
        rintro none
        simp [none] at behind
      refine added (mem_directRecursion_rules.mpr (.inr (.inl ⟨r, ?_, rfl⟩))) ?_
      · exact List.mem_filter.mpr ⟨recursive, by simpa using some⟩
      · refine Rule.mem_names_ofBody.mpr (.inr (Sentence.mem_namesIn_strip.mpr ?_))
        exact Symbol.mem_namesIn_append.mpr (.inl behind)
  · have base : r ∈ g.baseRulesOf head := List.mem_filter.mpr ⟨listed, by simpa using loop⟩
    rcases List.mem_cons.mp inside with rfl | within
    · rwa [(mem_rulesOf.mp listed).2]
    · refine added (mem_directRecursion_rules.mpr (.inl ⟨r, base, rfl⟩)) ?_
      refine Rule.mem_names_ofBody.mpr (.inr (Sentence.mem_namesIn_strip.mpr ?_))
      exact Symbol.mem_namesIn_append.mpr (.inl within)

theorem mem_names_substituted (member : rule ∈ g.rules) (closes : rule.lead = .nonTerminal root)
    (indirect : rule.head ≠ root) (defined : g.rulesOf root ≠ []) (named : n ∈ g.names) :
    n ∈ (g.replaced rule (g.substitution root rule)).names := by
  obtain ⟨alternative, listed⟩ := List.exists_mem_of_ne_nil _ defined
  obtain ⟨old, same⟩ := mem_rulesOf.mp listed
  have new : Rule.ofBody rule.head (Sentence.strip (alternative.body ++ rule.rest)) ∈
      g.substitution root rule :=
    List.mem_eraseDups.mpr (List.mem_map.mpr ⟨alternative, listed, rfl⟩)
  have added := (mem_replaced member).mpr (.inl new)
  have other : alternative ≠ rule := by
    rintro rfl
    exact indirect same
  refine mem_names_replaced (fun m inside => ?_) named
  have parts : m = rule.head ∨ m = root ∨ m ∈ Symbol.namesIn rule.rest := by
    simpa [Rule.names, Rule.body, closes] using inside
  rcases parts with head | lead | behind
  · exact mem_names.mpr ⟨_, added, Rule.mem_names_ofBody.mpr (.inl head)⟩
  · refine mem_names.mpr ⟨alternative, mem_replaced_of_ne old other, List.mem_cons.mpr (.inl ?_)⟩
    exact lead.trans same.symm
  · refine mem_names.mpr ⟨_, added, Rule.mem_names_ofBody.mpr (.inr ?_)⟩
    exact Sentence.mem_namesIn_strip.mpr (Symbol.mem_namesIn_append.mpr (.inr behind))

/-- The names that reached heads mention are reached. -/
theorem reached_of_mem_namesIn {reached : List Name} (found : g.reachable = .ok reached)
    (member : rule ∈ g.rules) (headed : rule.head ∈ reached)
    (named : n ∈ Symbol.namesIn rule.body) : n ∈ reached := by
  obtain ⟨plain, start, _, reached_iff⟩ := reachable_eq_ok found
  have occurs := (Symbol.mem_namesIn_of_plain (plain_of_mem plain member)).mp named
  have mentioned := mem_mentions.mpr ⟨rule, member, rfl, occurs⟩
  exact (reached_iff n).mpr (((reached_iff _).mp headed).tail mentioned)

end Grammar
end Ebnf
