import Mathlib
import Ebnf.Grammar.Measure
import Ebnf.Proofs.Editing.Bounded
import Ebnf.Proofs.Editing.Replay
import Ebnf.Proofs.Language.Preservation
import Ebnf.Proofs.Language.Strategy
import Ebnf.Proofs.Pass.Idempotence

/-! What factoring of shared leads comes to. It changes the words of no name, since no change does.
And it ends: the groups that are there after a round have all been made in that round, out of what
stood behind the leads of a group, so their rules have a visible symbol less. -/
namespace Ebnf

open Grammar Editing

variable {g : Grammar} {limits : Limits} {group other : LeadGroup} {fresh : Name} {rule : Rule}

/-- The number of symbols in a body, without ε. -/
def Rule.width (r : Rule) : Nat := r.body.visible.length

theorem Rule.visible_body_ofBody (head : Name) (s : Sentence) :
    (ofBody head s).body.visible = s.visible := by
  cases s with
  | nil => exact Sentence.visible_epsilon
  | cons a s => rfl

theorem Rule.width_le_length (r : Rule) : r.width ≤ r.body.length := List.length_filter_le _ _

theorem Rule.width_eq (visible : rule.lead ≠ .epsilon) :
    rule.width = (Sentence.visible rule.rest).length + 1 := by
  rw [Rule.width, Rule.body, Sentence.visible, List.filter_cons_of_pos (by simpa using visible)]
  rfl

/-- What stands behind a lead has one symbol less. -/
theorem LeadGroup.width_suffix (fresh : Name) (visible : rule.lead ≠ .epsilon) :
    (LeadGroup.suffix fresh rule).width + 1 = rule.width := by
  rw [LeadGroup.suffix, Rule.width, Rule.visible_body_ofBody, Sentence.visible_strip,
    Rule.width_eq visible]

/-- Whether a rule has the head and the lead of a group. -/
def LeadGroup.takes (group : LeadGroup) (rule : Rule) : Bool :=
  rule.lead = group.lead && rule.head = group.head

namespace Grammar

theorem rules_of_leadGroup (shared : group ∈ g.leadGroupsOf group.head) :
    group.rules = g.rules.filter group.takes := by
  obtain ⟨_, _, rules, _⟩ := mem_leadGroupsOf.mp shared
  rwa [rulesOf, List.filter_filter] at rules

/-- Once a group is factored, its head has a single rule that begins with its lead. -/
theorem countP_factored (shared : group ∈ g.leadGroupsOf group.head) (new : fresh ≠ group.head) :
    (g.factored group fresh).rules.countP group.takes = 1 := by
  obtain ⟨rest, before, after⟩ := factored_perm shared fresh
  have all : group.rules.countP group.takes = group.rules.length := by
    refine List.countP_eq_length.mpr fun rule member => ?_
    rw [rules_of_leadGroup shared] at member
    exact (List.mem_filter.mp member).2
  have others : rest.countP group.takes = 0 := by
    have whole : group.rules.length = g.rules.countP group.takes := by
      rw [List.countP_eq_length_filter, ← rules_of_leadGroup shared]
    rw [before.countP_eq, List.countP_append, all] at whole
    omega
  have suffixes :
      (group.rules.map (LeadGroup.suffix fresh)).eraseDups.countP group.takes = 0 := by
    refine List.countP_eq_zero.mpr fun rule member => ?_
    obtain ⟨origin, _, rfl⟩ := List.mem_map.mp (List.mem_eraseDups.mp member)
    simp [LeadGroup.takes, LeadGroup.suffix, new]
  have one : group.takes (group.factored fresh) = true := by
    simp [LeadGroup.takes, LeadGroup.factored]
  rw [after.countP_eq, List.countP_append, LeadGroup.replacements, List.countP_cons_of_pos one,
    suffixes, others]

/-- A group that is there after another was factored is made of what stood behind its lead, or was
there before and is apart from it. -/
theorem leadGroup_of_factored (shared : group ∈ g.leadGroupsOf group.head)
    (unused : fresh ∉ g.names) (later : other ∈ (g.factored group fresh).leadGroupsOf other.head) :
    (∀ rule ∈ other.rules, ∃ origin ∈ group.rules, rule = LeadGroup.suffix fresh origin) ∨
      other ∈ g.leadGroupsOf other.head ∧ other ≠ group := by
  have new : fresh ≠ group.head := fun same =>
    unused (same ▸ mem_names_of_mem_heads (leadGroup_head_mem_heads shared))
  by_cases made : fresh = other.head
  · refine .inl fun rule member => ?_
    obtain ⟨listed, head, _⟩ := mem_rules_of_leadGroup later member
    rcases mem_of_mem_factored listed with added | old
    · rcases List.mem_cons.mp added with rfl | suffix
      · exact absurd (made.trans head.symm) new
      · obtain ⟨origin, grouped, same⟩ := List.mem_map.mp (List.mem_eraseDups.mp suffix)
        exact ⟨origin, grouped, same.symm⟩
    · have named : fresh ∈ g.names := by
        rw [made, ← head]
        exact mem_names_of_mem_heads (head_mem_heads old)
      exact absurd named unused
  · obtain ⟨_, visible, rules, several⟩ := mem_leadGroupsOf.mp later
    by_cases same : other.head = group.head ∧ other.lead = group.lead
    · -- One rule is left of the group that was factored, and a group has several.
      have alike : other.takes = group.takes := by
        unfold LeadGroup.takes
        rw [same.1, same.2]
      rw [rules_of_leadGroup later, alike, ← List.countP_eq_length_filter,
        countP_factored shared new] at several
      exact absurd several (Nat.lt_irrefl 1)
    · have apart : group.head ≠ other.head ∨ group.lead ≠ other.lead := by
        by_contra! both
        exact same ⟨both.1.symm, both.2.symm⟩
      rw [filter_rulesOf_factored shared made apart] at rules
      refine .inr ⟨mem_leadGroupsOf.mpr ⟨rfl, visible, rules, several⟩, ?_⟩
      rintro rfl
      exact same ⟨rfl, rfl⟩

end Grammar

/-! The rounds. -/

/-- No rule of any group has more than a number of symbols, ε left out. -/
structure Grammar.SharesWithin (k : Nat) (g : Grammar) : Prop where
  plain : g.hasShorthand = false
  bound : ∀ group ∈ g.heads.flatMap g.leadGroupsOf, ∀ rule ∈ group.rules, rule.width ≤ k

theorem Grammar.mem_leadGroups :
    group ∈ g.heads.flatMap g.leadGroupsOf ↔ group ∈ g.leadGroupsOf group.head := by
  constructor
  · exact shared_leadGroups.2 group
  · exact fun shared => List.mem_flatMap.mpr ⟨_, leadGroup_head_mem_heads shared, shared⟩

namespace Editing

variable {rest : List LeadGroup} {k : Nat}

/-- In the middle of a round the groups are those that are still to come and others whose rules are
shorter. -/
structure Pending (k : Nat) (rest : List LeadGroup) (g : Grammar) : Prop where
  plain : g.hasShorthand = false
  shared : Shared rest g
  bound : ∀ group ∈ rest, ∀ rule ∈ group.rules, rule.width ≤ k
  made : ∀ group ∈ g.leadGroupsOf group.head, group ∈ rest ∨ ∀ rule ∈ group.rules, rule.width < k

theorem Pending.factor (pending : Pending k (group :: rest) g) :
    ∃ g', (factor group).Leaves g () g' ∧ Pending k rest g' := by
  have listed := pending.shared.2 group List.mem_cons_self
  have unused := g.fresh_notMem_names group.head
  refine ⟨_, by rw [Leaves, run_factor listed]; exact ⟨rfl, rfl⟩, ?_, pending.shared.factored,
    fun group later => pending.bound group (List.mem_cons_of_mem _ later), ?_⟩
  · exact (Change.factoring listed).plain (by decide) pending.plain
  · intro other later
    rcases leadGroup_of_factored listed unused later with suffixes | ⟨old, apart⟩
    · refine .inr fun rule member => ?_
      obtain ⟨origin, grouped, rfl⟩ := suffixes rule member
      have visible := visible_of_leadGroup listed grouped
      have shorter := LeadGroup.width_suffix (g.fresh group.head) visible
      have bound := pending.bound group List.mem_cons_self origin grouped
      omega
    · exact (pending.made other old).imp_left fun known =>
        (List.mem_cons.mp known).resolve_left apart

/-- A round over a grammar with groups lowers the bound on the size of their rules. -/
theorem descends_factorRound : Descends factorRound Grammar.SharesWithin := by
  rintro k g ⟨plain, bound⟩
  have groups : g.leadGroups.mapError Failure.misuse = .ok (g.heads.flatMap g.leadGroupsOf) :=
    mapError_eq_ok.mpr (leadGroups_eq_ok.mpr ⟨plain, rfl⟩)
  simp only [factorRound, leaves_current_bind, leaves_ofExcept_bind, groups, Except.ok.injEq,
    exists_eq_left']
  split
  · exact ⟨true, g, leaves_pure.mpr ⟨rfl, rfl⟩, by simp⟩
  · next some =>
    obtain ⟨group, member⟩ := List.exists_mem_of_ne_nil _ some
    have listed := mem_leadGroups.mp member
    obtain ⟨rule, grouped⟩ := exists_mem_leadGroup listed
    have positive : 0 < k := by
      have size := bound group member rule grouped
      rw [Rule.width_eq (visible_of_leadGroup listed grouped)] at size
      omega
    have initial : Pending k (g.heads.flatMap g.leadGroupsOf) g :=
      ⟨plain, shared_leadGroups, bound, fun group shared => .inl (mem_leadGroups.mpr shared)⟩
    obtain ⟨g', left, pending⟩ :=
      exists_leaves_forM (Pending k) (fun _ _ _ pending => pending.factor) initial
    refine ⟨false, g', leaves_bind_unit.mpr ⟨g', left, leaves_pure.mpr ⟨rfl, rfl⟩⟩, fun _ => ?_⟩
    refine ⟨k - 1, by omega, pending.plain, fun group member rule grouped => ?_⟩
    have made := (pending.made group (mem_leadGroups.mp member)).resolve_left (by simp)
    have less := made rule grouped
    omega

theorem leaves_factorSharedLeads {rounds : Int} (plain : g.hasShorthand = false)
    (whole : limits.maxIterations.whole? = some rounds)
    (enough : (g.largest (·.body.length) : Int) < rounds) :
    ∃ g', (factorSharedLeads limits).Leaves g () g' := by
  have within : g.SharesWithin (g.largest (·.body.length)) := by
    refine ⟨plain, fun group member rule grouped => ?_⟩
    have listed := (mem_rules_of_leadGroup (mem_leadGroups.mp member) grouped).1
    exact rule.width_le_length.trans (le_largest (·.body.length) listed)
  exact descends_factorRound.perform (fun _ => plain) within whole enough

theorem pairwise_of_factorSharedLeads {g' : Grammar}
    (left : (factorSharedLeads limits).Leaves g () g') :
    g'.rules.Pairwise fun a b => a.head = b.head → a.lead = b.lead → a.lead = .epsilon := by
  obtain ⟨_, none⟩ := quiet_factorSharedLeads.mp (idempotent_factorSharedLeads g g' left)
  exact leadGroups_eq_nil_iff.mp (leadGroups_eq_ok.mp none).2.symm

end Editing

/-- Factoring of shared leads succeeds on a grammar without shorthand if it may go round more often
than there are symbols in any body. Then no two alternatives of one head begin with the same symbol,
unless that is ε, and each name that the grammar had spells the words that it spelled. -/
theorem Pass.sharedLeads_factors {rounds : Int} (plain : g.hasShorthand = false)
    (whole : limits.maxIterations.whole? = some rounds)
    (enough : (g.largest (·.body.length) : Int) < rounds) :
    let r := (Pass.single .sharedLeads).run limits g
    r.outcome = .ok () ∧
      (r.grammar.rules.Pairwise fun a b =>
        a.head = b.head → a.lead = b.lead → a.lead = .epsilon) ∧
      ∀ n ∈ g.names, ∀ w, r.grammar.Spells n w ↔ g.Spells n w := by
  intro r
  obtain ⟨_, left⟩ := leaves_factorSharedLeads plain whole enough
  refine ⟨left.1, pairwise_of_factorSharedLeads ⟨left.1, rfl⟩, fun n named w => ?_⟩
  exact Pass.single_spells_iff (by decide) False.elim limits named w

/-- `pronoun → pronoun a` and `pronoun → pronoun ε b`, `pronoun → c article` twice and its beginning
`pronoun → c`. -/
def Grammar.pronouns : Grammar :=
  let pronoun : Name := ⟨"pronoun", by decide⟩
  let article : Symbol := .nonTerminal ⟨"article", by decide⟩
  let token (text : String) : Symbol := .terminal ⟨text, none⟩
  .ofRules [⟨pronoun, .nonTerminal pronoun, [token "a"]⟩,
    ⟨pronoun, .nonTerminal pronoun, [.epsilon, token "b"]⟩, ⟨pronoun, token "c", [article]⟩,
    ⟨pronoun, token "c", [article]⟩, ⟨pronoun, token "c", []⟩] none

/-- Both groups of `pronouns` are factored within the four rounds that its bodies of three symbols
call for. -/
theorem Pass.sharedLeads_pronouns :
    let r := (Pass.single .sharedLeads).run (.ofCounts 4 1) pronouns
    (pronouns.hasShorthand = false ∧ pronouns.largest (·.body.length) = 3 ∧
      (pronouns.heads.flatMap pronouns.leadGroupsOf).length = 2) ∧ r.outcome = .ok () ∧
      (r.grammar.rules.Pairwise fun a b =>
        a.head = b.head → a.lead = b.lead → a.lead = .epsilon) ∧
      ∀ n ∈ pronouns.names, ∀ w, r.grammar.Spells n w ↔ pronouns.Spells n w := by
  have plain : pronouns.hasShorthand = false := by decide
  have three : pronouns.largest (·.body.length) = 3 := by decide
  have two : (pronouns.heads.flatMap pronouns.leadGroupsOf).length = 2 := by cbv
  have whole : (Limits.ofCounts 4 1).maxIterations.whole? = some 4 := rfl
  have enough : (pronouns.largest (·.body.length) : Int) < 4 := by rw [three]; decide
  exact ⟨⟨plain, three, two⟩, Pass.sharedLeads_factors plain whole enough⟩

end Ebnf
