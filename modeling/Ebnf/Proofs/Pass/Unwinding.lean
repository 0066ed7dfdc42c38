import Ebnf.Proofs.Analysis.Roots
import Ebnf.Proofs.Editing.Heads
import Ebnf.Proofs.Language.Bodies
import Ebnf.Proofs.Language.Closure

/-! Removal of direct left recursion, as far as leading goes. Whether or not it brings in a fresh
name, the alternatives that stay begin as before, and nothing leads to the fresh name. So it makes
no head lead back to itself. -/
namespace Ebnf

open Grammar

variable {g : Grammar} {head root x y : Name} {r : Rule}

/-- Rules that take the place of those of a head. Its alternatives that do not begin with it go on
beginning as they did, and other rules are of new names that no rule begins with. -/
structure Unwinding (g : Grammar) (head : Name) where
  continued : Rule → Rule
  added : List Rule
  head_continued : ∀ rule ∈ g.baseRulesOf head, (continued rule).head = head
  lead_continued : ∀ rule ∈ g.baseRulesOf head, (continued rule).lead = rule.lead
  visible_continued : ∀ rule ∈ g.baseRulesOf head, .epsilon ∉ (continued rule).body
  head_added : ∀ rule ∈ added, rule.head ∉ g.names
  lead_added : ∀ rule ∈ added, ∀ y, rule.lead = .nonTerminal y → y ∈ g.names

namespace Unwinding

def rules (u : Unwinding g head) : List Rule := (g.baseRulesOf head).map u.continued ++ u.added

def result (u : Unwinding g head) : Grammar := g.withRulesOf head u.rules

/-- Where only rules `A → A` are dropped. -/
def loops (visible : ∀ rule ∈ g.rulesOf head, .epsilon ∉ rule.body) : Unwinding g head where
  continued := id
  added := []
  head_continued := fun _ base => (mem_baseRulesOf.mp base).1.2
  lead_continued := fun _ _ => rfl
  visible_continued := fun rule base => visible rule (mem_rulesOf.mpr (mem_baseRulesOf.mp base).1)
  head_added := by simp
  lead_added := by simp

theorem result_loops (visible : ∀ rule ∈ g.rulesOf head, .epsilon ∉ rule.body) :
    (loops visible).result = g.withRulesOf head (g.baseRulesOf head) := by
  simp [result, rules, loops]

/-- Where the alternatives are continued by a fresh name. -/
def direct (visible : ∀ rule ∈ g.rulesOf head, .epsilon ∉ rule.body) (defined : g.Defined) :
    Unwinding g head where
  continued := DirectRecursion.closing (g.continuation head)
  added := (g.directRecursion head).recursive.map
      (DirectRecursion.continuing (g.continuation head)) ++
    [DirectRecursion.ending (g.continuation head)]
  head_continued := fun _ base => head_closing.trans (mem_baseRulesOf.mp base).1.2
  lead_continued := by
    intro rule base
    have shown := visible rule (mem_rulesOf.mpr (mem_baseRulesOf.mp base).1)
    exact Rule.lead_ofBody_strip (Rule.lead_ne_epsilon shown)
  visible_continued := by
    intro rule base
    have shown := visible rule (mem_rulesOf.mpr (mem_baseRulesOf.mp base).1)
    have extended : .epsilon ∉ rule.body ++ [.nonTerminal (g.continuation head)] := by
      simpa using shown
    rw [DirectRecursion.closing, Sentence.strip_eq_self extended (by simp),
      Rule.body_ofBody (by simp)]
    exact extended
  head_added := by
    intro rule new
    have same : rule.head = g.continuation head := by
      rcases List.mem_append.mp new with tail | last
      · obtain ⟨_, _, rfl⟩ := List.mem_map.mp tail
        exact head_continuing
      · rw [List.mem_singleton.mp last]
        rfl
    rw [same]
    exact continuation_notMem_names defined
  lead_added := by
    intro rule new y lead
    rcases List.mem_append.mp new with tail | last
    · obtain ⟨r, listed, rfl⟩ := List.mem_map.mp tail
      obtain ⟨⟨⟨member, named⟩, _⟩, some⟩ := mem_directRecursion_recursive.mp listed
      have shown := visible r (mem_rulesOf.mpr ⟨member, named⟩)
      cases rest : r.rest with
      | nil => exact absurd rest some
      | cons a s =>
        have inside : a ∈ r.body := List.mem_cons_of_mem _ (rest ▸ List.mem_cons_self)
        rw [DirectRecursion.continuing, rest, List.cons_append,
          Rule.lead_ofBody_strip fun nothing => shown (nothing ▸ inside)] at lead
        subst lead
        exact mem_names_of_mem_body member inside
    · rw [List.mem_singleton.mp last] at lead
      cases lead

theorem result_direct (visible : ∀ rule ∈ g.rulesOf head, .epsilon ∉ rule.body)
    (defined : g.Defined) : (direct visible defined).result =
      g.withRulesOf head ((g.directRecursion head).rules (g.continuation head)) := by
  simp [result, rules, direct, DirectRecursion.rules, directRecursion]

variable (u : Unwinding g head)

theorem mem_rules_result : r ∈ u.result.rules ↔
    (∃ base ∈ g.baseRulesOf head, u.continued base = r) ∨
      r ∈ u.added ∨ (r ∈ g.rules ∧ r.head ≠ head) := by
  rw [result, mem_withRulesOf, rules, List.mem_append, List.mem_map, or_assoc]

/-- A rule of an old name begins like a rule that the name had, and not with the head if it is the
head's. -/
theorem exists_old (member : r ∈ u.result.rules) (named : r.head ∈ g.names) :
    ∃ old ∈ g.rules, old.head = r.head ∧ old.lead = r.lead ∧
      (r.head = head → r.isLeftRecursive = false) := by
  rcases u.mem_rules_result.mp member with ⟨base, listed, rfl⟩ | added | ⟨old, other⟩
  · obtain ⟨⟨known, same⟩, others⟩ := mem_baseRulesOf.mp listed
    have headed := u.head_continued base listed
    have lead := u.lead_continued base listed
    refine ⟨base, known, same.trans headed.symm, lead.symm, fun _ => ?_⟩
    rw [Rule.isLeftRecursive, lead, headed, ← same]
    exact others
  · exact absurd named (u.head_added r added)
  · exact ⟨r, old, rfl, rfl, fun same => absurd same other⟩

theorem mem_names_of_leads (leads : u.result.Leads x y) : y ∈ g.names := by
  obtain ⟨r, member, rfl, lead⟩ := leads
  by_cases named : r.head ∈ g.names
  · obtain ⟨old, known, _, begins, _⟩ := u.exists_old member named
    have inside : .nonTerminal y ∈ old.body := (begins.trans lead) ▸ List.mem_cons_self
    exact mem_names_of_mem_body known inside
  · rcases u.mem_rules_result.mp member with ⟨base, listed, rfl⟩ | added | ⟨old, _⟩
    · have known := (mem_baseRulesOf.mp listed).1
      rw [u.head_continued base listed, ← known.2] at named
      exact absurd (mem_names.mpr ⟨base, known.1, List.mem_cons_self⟩) named
    · exact u.lead_added r added y lead
    · exact absurd (mem_names.mpr ⟨r, old, List.mem_cons_self⟩) named

theorem within : u.result.BeginsWithin g where
  old := fun _ member named =>
    have ⟨old, known, same, begins, _⟩ := u.exists_old member named
    ⟨old, known, same, begins⟩
  known := fun _ _ => u.mem_names_of_leads

theorem recursive_of_result (recursive : u.result.leftRecursiveRulesOf x ≠ [])
    (named : x ∈ g.names) : g.leftRecursiveRulesOf x ≠ [] ∧ x ≠ head := by
  obtain ⟨r, listed⟩ := List.exists_mem_of_ne_nil _ recursive
  obtain ⟨⟨member, rfl⟩, loop⟩ := mem_leftRecursiveRulesOf.mp listed
  obtain ⟨old, known, same, begins, cleared⟩ := u.exists_old member named
  constructor
  · refine List.ne_nil_of_mem (mem_leftRecursiveRulesOf.mpr ⟨⟨known, same⟩, ?_⟩)
    rwa [Rule.isLeftRecursive, begins, same]
  · intro headed
    rw [cleared headed] at loop
    cases loop

theorem heads_sublist (based : g.baseRulesOf head ≠ []) : g.heads.Sublist u.result.heads := by
  obtain ⟨base, listed⟩ := List.exists_mem_of_ne_nil _ based
  have known := (mem_baseRulesOf.mp listed).1
  have headed : head ∈ g.heads := known.2 ▸ head_mem_heads known.1
  have order : u.result.heads.filter (· ∈ g.names) = g.heads.filter (· ∈ g.names) := by
    apply heads_withRulesOf headed (by simpa using mem_names_of_mem_heads headed)
    · exact ⟨_, List.mem_append_left _ (List.mem_map_of_mem listed), u.head_continued base listed⟩
    · intro r new
      rcases List.mem_append.mp new with old | added
      · obtain ⟨rule, occurs, rfl⟩ := List.mem_map.mp old
        exact .inl (u.head_continued rule occurs)
      · exact .inr (by simpa using u.head_added r added)
  have all : g.heads.filter (· ∈ g.names) = g.heads :=
    List.filter_eq_self.mpr fun name inside => by simpa using mem_names_of_mem_heads inside
  rw [← all, ← order]
  exact List.filter_sublist

/-- Rules of old names that begin in a certain way do not become more. -/
theorem countP_result_le (p : Rule → Bool) (old : ∀ r, p r = true → r.head ∈ g.names)
    (similar : ∀ r s, r.head = s.head → r.lead = s.lead → p r = p s) :
    u.result.rules.countP p ≤ g.rules.countP p := by
  have added : u.added.countP p = 0 := by
    apply List.countP_eq_zero.mpr
    intro r new chosen
    exact u.head_added r new (old r chosen)
  have continued : ((g.baseRulesOf head).map u.continued).countP p =
      (g.baseRulesOf head).countP p := by
    rw [List.countP_map]
    apply List.countP_congr
    intro rule base
    have same := (mem_baseRulesOf.mp base).1.2
    rw [Function.comp_apply, similar _ rule ((u.head_continued rule base).trans same.symm)
      (u.lead_continued rule base)]
  have split := List.countP_eq_countP_filter_add g.rules p (·.head = head)
  have fewer : (g.baseRulesOf head).countP p ≤ (g.rules.filter (·.head = head)).countP p :=
    List.filter_sublist.countP_le
  rw [result, (withRulesOf_perm u.rules).countP_eq, rules, List.countP_append, List.countP_append,
    continued, added, split]
  simpa using fewer

end Unwinding
end Ebnf
