import Ebnf.Proofs.Analysis.Roots
import Ebnf.Proofs.Language.Bodies

/-! Substitution at the root of a cycle, as far as leading goes. Where no ε stands in the rules of
the root, what a rule gives way to begins like they do. So its head leads where it led before, by
one step or by two, and does not begin with the root any more. -/
namespace Ebnf

open Grammar

variable {g : Grammar} {root x y : Name} {rule r : Rule}

/-- What a rule gives way to begins like the alternatives of the root. -/
theorem exists_alternative (visible : ∀ alternative ∈ g.rulesOf root, .epsilon ∉ alternative.body)
    (new : r ∈ g.substitution root rule) :
    r.head = rule.head ∧ ∃ alternative ∈ g.rulesOf root, r.lead = alternative.lead := by
  obtain ⟨alternative, listed, rfl⟩ := List.mem_map.mp (List.mem_eraseDups.mp new)
  refine ⟨Rule.head_ofBody _ _, alternative, listed, ?_⟩
  exact Rule.lead_ofBody_strip (Rule.lead_ne_epsilon (visible alternative listed))

/-- The rule closes a cycle at the root, which is the first active head, and no head that has
another alternative begins its own rules. -/
structure Shortening (g : Grammar) (root : Name) (rule : Rule) : Prop where
  member : rule ∈ g.rules
  closes : rule.lead = .nonTerminal root
  indirect : rule.head ≠ root
  back : Relation.ReflTransGen g.Leads root rule.head
  based : g.baseRulesOf root ≠ []
  cleared : ∀ head, g.baseRulesOf head ≠ [] → g.leftRecursiveRulesOf head = []
  first : ∃ before after, g.heads = before ++ root :: after ∧ ∀ head ∈ before, ¬ g.Active head

namespace Shortening

variable (shortening : Shortening g root rule)

include shortening

theorem around_root : Relation.TransGen g.Leads root root :=
  .tail' shortening.back ⟨rule, shortening.member, rfl, shortening.closes⟩

theorem around_head : Relation.TransGen g.Leads rule.head rule.head :=
  .head' ⟨rule, shortening.member, rfl, shortening.closes⟩ shortening.back

theorem defined : g.rulesOf root ≠ [] := by
  obtain ⟨rule, listed⟩ := List.exists_mem_of_ne_nil _ shortening.based
  exact List.ne_nil_of_mem (mem_rulesOf.mpr (mem_baseRulesOf.mp listed).1)

variable (visible : ∀ alternative ∈ g.rulesOf root, .epsilon ∉ alternative.body)

include visible

theorem lead_ne_root (new : r ∈ g.substitution root rule) : r.lead ≠ .nonTerminal root := by
  intro lead
  obtain ⟨_, alternative, listed, same⟩ := exists_alternative visible new
  obtain ⟨member, named⟩ := mem_rulesOf.mp listed
  have recursive : alternative ∈ g.leftRecursiveRulesOf root := by
    refine mem_leftRecursiveRulesOf.mpr ⟨⟨member, named⟩, Rule.isLeftRecursive_iff.mpr ?_⟩
    rw [named, ← same, lead]
  simp [shortening.cleared root shortening.based] at recursive

theorem leads_of_replaced (leads : (g.replaced rule (g.substitution root rule)).Leads x y) :
    Relation.TransGen g.Leads x y := by
  obtain ⟨r, member, rfl, lead⟩ := leads
  rcases mem_of_mem_replaced member with new | old
  · obtain ⟨same, alternative, listed, begins⟩ := exists_alternative visible new
    have through : g.Leads root y := leads_iff.mpr ⟨alternative, listed, begins.symm.trans lead⟩
    rw [same]
    exact .head ⟨rule, shortening.member, rfl, shortening.closes⟩ (.single through)
  · exact .single ⟨r, old, rfl, lead⟩

theorem around_of_replaced
    (around : Relation.TransGen (g.replaced rule (g.substitution root rule)).Leads x x) :
    Relation.TransGen g.Leads x x :=
  Relation.TransGen.closed (fun _ _ leads => shortening.leads_of_replaced visible leads) _ _ around

theorem based_of_replaced
    (based : (g.replaced rule (g.substitution root rule)).baseRulesOf x ≠ []) :
    g.baseRulesOf x ≠ [] := by
  obtain ⟨r, listed⟩ := List.exists_mem_of_ne_nil _ based
  obtain ⟨⟨member, rfl⟩, others⟩ := mem_baseRulesOf.mp listed
  rcases mem_of_mem_replaced member with new | old
  · rw [(exists_alternative visible new).1]
    refine baseRulesOf_ne_nil shortening.member rfl ?_
    simpa [Rule.isLeftRecursive, shortening.closes] using shortening.indirect.symm
  · exact baseRulesOf_ne_nil old rfl others

end Shortening

end Ebnf
