import Ebnf.Proofs.Language.Rewriting

/-! What stands in the bodies after a change. Apart from the expansion of shorthand, a change puts
bodies together from symbols that were there, non-terminals and ε, so it brings in no shorthand. -/
namespace Ebnf

variable {a : Symbol} {s : Sentence} {head : Name}

theorem Sentence.mem_strip (member : a ∈ strip s) : a = .epsilon ∨ a ∈ s := by
  unfold strip at member
  split at member
  · exact .inl (List.mem_singleton.mp member)
  · exact .inr (List.mem_filter.mp member).1

/-- Where there is no ε, nothing is left out. -/
theorem Sentence.strip_eq_self (visible : .epsilon ∉ s) (some : s ≠ []) : strip s = s := by
  have kept : s.filter (· ≠ .epsilon) = s := by
    apply List.filter_eq_self.mpr
    intro a member
    simpa using fun same : a = .epsilon => visible (same ▸ member)
  unfold strip
  rw [kept]
  cases s with
  | nil => exact absurd rfl some
  | cons a s => rfl

namespace Rule

theorem body_ofBody (some : s ≠ []) : (ofBody head s).body = s := by
  cases s with
  | nil => exact absurd rfl some
  | cons a s => rfl

theorem lead_ofBody_strip (visible : a ≠ .epsilon) :
    (ofBody head (Sentence.strip (a :: s))).lead = a := by
  rw [Sentence.strip, List.filter_cons_of_pos (by simpa using visible)]
  rfl

theorem mem_body_ofBody (member : a ∈ (ofBody head s).body) : a = .epsilon ∨ a ∈ s := by
  cases s with
  | nil => exact .inl (List.mem_singleton.mp member)
  | cons b s => exact .inr member

theorem mem_body_ofBody_strip (member : a ∈ (ofBody head (Sentence.strip s)).body) :
    a = .epsilon ∨ a ∈ s :=
  (mem_body_ofBody member).elim .inl Sentence.mem_strip

end Rule

/-- Symbols that a change may put into a body: ε, non-terminals, and what stands in some body. -/
def Grammar.Supplies (g : Grammar) (a : Symbol) : Prop :=
  a = .epsilon ∨ (∃ name, a = .nonTerminal name) ∨ ∃ rule ∈ g.rules, a ∈ rule.body

namespace Grammar

variable {g g' : Grammar} {root fresh : Name} {rule r : Rule}

theorem supplies_of_mem (member : rule ∈ g.rules) (inside : a ∈ rule.body) : g.Supplies a :=
  .inr (.inr ⟨rule, member, inside⟩)

theorem supplies_nonTerminal (name : Name) : g.Supplies (.nonTerminal name) :=
  .inr (.inl ⟨name, rfl⟩)

theorem supplies_of_mem_append (front : a ∈ s → g.Supplies a)
    (inside : a = .epsilon ∨ a ∈ s ++ [.nonTerminal fresh]) : g.Supplies a := by
  rcases inside with nothing | inside
  · exact .inl nothing
  · rcases List.mem_append.mp inside with old | new
    · exact front old
    · exact List.mem_singleton.mp new ▸ supplies_nonTerminal fresh

theorem supplies_of_mem_substitution (member : rule ∈ g.rules)
    (new : r ∈ g.substitution root rule) (inside : a ∈ r.body) : g.Supplies a := by
  obtain ⟨alternative, listed, rfl⟩ := List.mem_map.mp (List.mem_eraseDups.mp new)
  rcases Rule.mem_body_ofBody_strip inside with nothing | known
  · exact .inl nothing
  · rcases List.mem_append.mp known with front | back
    · exact supplies_of_mem (mem_rulesOf.mp listed).1 front
    · exact supplies_of_mem member (List.mem_cons_of_mem _ back)

theorem supplies_of_mem_directRecursion (new : r ∈ (g.directRecursion head).rules fresh)
    (inside : a ∈ r.body) : g.Supplies a := by
  rcases mem_directRecursion_rules.mp new with ⟨base, listed, rfl⟩ | ⟨tail, listed, rfl⟩ | rfl
  · have member := (mem_baseRulesOf.mp listed).1.1
    exact supplies_of_mem_append (supplies_of_mem member) (Rule.mem_body_ofBody_strip inside)
  · have member := (mem_directRecursion_recursive.mp listed).1.1.1
    have rest (known : a ∈ tail.rest) := supplies_of_mem member (List.mem_cons_of_mem _ known)
    exact supplies_of_mem_append rest (Rule.mem_body_ofBody_strip inside)
  · exact .inl (List.mem_singleton.mp inside)

theorem supplies_of_mem_replacements {group : LeadGroup}
    (shared : group ∈ g.leadGroupsOf group.head) (new : r ∈ group.replacements fresh)
    (inside : a ∈ r.body) : g.Supplies a := by
  rcases List.mem_cons.mp new with rfl | suffix
  · obtain ⟨rule, member⟩ := exists_mem_leadGroup shared
    obtain ⟨listed, _, lead⟩ := mem_rules_of_leadGroup shared member
    rcases List.mem_cons.mp inside with rfl | new
    · rw [LeadGroup.factored, ← lead]
      exact supplies_of_mem listed List.mem_cons_self
    · exact List.mem_singleton.mp new ▸ supplies_nonTerminal fresh
  · obtain ⟨rule, member, rfl⟩ := List.mem_map.mp (List.mem_eraseDups.mp suffix)
    rcases Rule.mem_body_ofBody_strip inside with nothing | known
    · exact .inl nothing
    · exact supplies_of_mem (mem_rules_of_leadGroup shared member).1 (List.mem_cons_of_mem _ known)

end Grammar

open Grammar

theorem Change.supplies {kind : Transformation} {g g' : Grammar} {events : List Event} {r : Rule}
    (other : kind ≠ .shorthand) (change : Change kind g events g') (member : r ∈ g'.rules)
    (inside : a ∈ r.body) : g.Supplies a := by
  cases change with
  | expansion => exact absurd rfl other
  | unit listed _ _ _ _ =>
    rcases mem_of_mem_replaced member with new | old
    · obtain ⟨alternative, known, rfl⟩ := List.mem_map.mp new
      exact supplies_of_mem (mem_rulesOf.mp known).1 inside
    · exact supplies_of_mem old inside
  | factoring shared =>
    rcases mem_of_mem_factored member with new | old
    · exact supplies_of_mem_replacements shared new inside
    · exact supplies_of_mem old inside
  | loops _ _ _ _ =>
    rcases mem_withRulesOf.mp member with base | old
    · exact supplies_of_mem (mem_baseRulesOf.mp base).1.1 inside
    · exact supplies_of_mem old.1 inside
  | direct _ _ _ =>
    rcases mem_withRulesOf.mp member with new | old
    · exact supplies_of_mem_directRecursion new inside
    · exact supplies_of_mem old.1 inside
  | substitution listed _ _ _ =>
    rcases mem_of_mem_replaced member with new | old
    · exact supplies_of_mem_substitution listed new inside
    · exact supplies_of_mem old inside
  | removal _ _ => exact supplies_of_mem (List.mem_filter.mp member).1 inside
  | deduplication _ => exact supplies_of_mem (List.mem_eraseDups.mp member) inside
  | augmentation _ _ _ =>
    rcases List.mem_cons.mp member with rfl | old
    · exact List.mem_singleton.mp inside ▸ supplies_nonTerminal _
    · exact supplies_of_mem old inside

/-- A grammar without shorthand stays without. -/
theorem Change.plain {kind : Transformation} {g g' : Grammar} {events : List Event}
    (other : kind ≠ .shorthand) (change : Change kind g events g')
    (plain : g.hasShorthand = false) : g'.hasShorthand = false := by
  apply Bool.eq_false_iff.mpr
  intro shorthand
  obtain ⟨r, member, within⟩ := List.any_eq_true.mp shorthand
  obtain ⟨a, inside, bracketed⟩ := List.any_eq_true.mp within
  rcases change.supplies other member inside with rfl | ⟨name, rfl⟩ | ⟨rule, listed, known⟩
  · cases bracketed
  · cases bracketed
  · have none := plain_of_mem plain listed
    exact Bool.eq_false_iff.mp none (List.any_eq_true.mpr ⟨a, known, bracketed⟩)

end Ebnf
