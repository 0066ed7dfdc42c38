import Mathlib
import Ebnf.Proofs.Language.Preservation
import Ebnf.Proofs.Pass.Idempotence

/-! The start symbol that a table generator is given. Reducing by its rule means accepting if it
occurs in no body, and that is so unless it was there before: augmentation looks at the rules of the
start symbol only, and takes a single unit rule for a sign that it was there already. -/
namespace Ebnf

open Grammar

variable {g g' : Grammar} {limits : Limits} {name : Name}

namespace Grammar

/-- The non-terminal has one rule only, and that is a unit. -/
def HasSingleUnit (g : Grammar) (name : Name) : Prop :=
  ∃ rule, g.rulesOf name = [rule] ∧ rule.isUnit = true

/-- The non-terminal occurs in the body of a rule, at any depth. -/
def OccursIn (g : Grammar) (name : Name) : Prop :=
  ∃ rule ∈ g.rules, name ∈ Symbol.namesIn rule.body

theorem HasSingleUnit.exists_target (single : g.HasSingleUnit name) :
    ∃ target, g.rulesOf name = [⟨name, .nonTerminal target, []⟩] := by
  obtain ⟨⟨head, lead, rest⟩, alone, unit⟩ := single
  obtain ⟨target, named⟩ := Option.isSome_iff_exists.mp unit
  obtain ⟨rfl, rfl⟩ := Rule.unit?_eq_some.mp named
  have listed : (⟨head, .nonTerminal target, []⟩ : Rule) ∈ g.rulesOf name := by simp [alone]
  obtain rfl : head = name := (mem_rulesOf.mp listed).2
  exact ⟨target, alone⟩

theorem OccursIn.mem_names (occurs : g.OccursIn name) : name ∈ g.names := by
  obtain ⟨rule, member, named⟩ := occurs
  exact Grammar.mem_names.mpr ⟨rule, member, List.mem_cons_of_mem _ named⟩

/-- The fresh start symbol is not in the bodies that were there before, and in the body of its own
rule there is only the old one. -/
theorem not_occursIn_augmented (g : Grammar) (start : Name) :
    ¬ (⟨⟨g.fresh start, .nonTerminal start, []⟩ :: g.rules, some (g.fresh start)⟩ :
      Grammar).OccursIn (g.fresh start) := by
  rintro ⟨rule, member, named⟩
  rcases List.mem_cons.mp member with rfl | old
  · have same : g.fresh start = start := by
      simpa [Rule.body, Symbol.namesIn, Symbol.names] using named
    exact g.fresh_ne start same
  · exact g.fresh_notMem_names start (OccursIn.mem_names ⟨rule, old, named⟩)

end Grammar

namespace Editing

theorem augmentStart_leaves (left : augmentStart.Leaves g () g') (some : g.rules ≠ []) :
    ∃ given start target, g.start = .some given ∧ g'.start = .some start ∧
      g'.rulesOf start = [⟨start, .nonTerminal target, []⟩] ∧
      (g'.OccursIn start ↔ g.HasSingleUnit given ∧ g.OccursIn given) ∧
      (g.HasSingleUnit given ∧ start = given ∨
        ¬ g.HasSingleUnit given ∧ start ∉ g.names ∧ target = given ∧ ¬ g'.OccursIn start) := by
  obtain ⟨_, left⟩ := leaves_perform.mp left
  rcases augment_leaves left with ⟨empty, _⟩ | ⟨given, started, single | augmented⟩
  · exact absurd empty some
  · obtain ⟨single, rfl⟩ := single
    obtain ⟨target, alone⟩ := HasSingleUnit.exists_target single
    have chosen := (requireStart_eq_ok.mp started).1
    exact ⟨given, given, target, chosen, chosen, alone, (and_iff_right single).symm,
      .inl ⟨single, rfl⟩⟩
  · obtain ⟨several, rfl⟩ := augmented
    obtain ⟨_, alone⟩ := started_augmented g given
    have absent := not_occursIn_augmented g given
    refine ⟨given, _, given, (requireStart_eq_ok.mp started).1, rfl, alone, ?_, ?_⟩
    · exact iff_of_false absent fun both => several both.1
    · exact .inr ⟨several, g.fresh_notMem_names given, rfl, absent⟩

theorem prepareLR1_leaves (left : (prepareLR1 limits).Leaves g () g') : ∃ expanded,
    (expandShorthand limits).Leaves g () expanded ∧ augmentStart.Leaves expanded () g' := by
  obtain ⟨done, _, first, rest⟩ := leaves_bind.mp left
  rw [leaves_current_bind, leaves_remark] at rest
  have staged := (leaves_recorded.mp (rest ▸ first)).1
  simp only [leaves_bind_unit, leaves_stage, leaves_current_bind, leaves_ofExcept_bind] at staged
  obtain ⟨expanded, shorthand, _, augmented, _, _, accepted⟩ := staged
  obtain ⟨_, rfl⟩ := leaves_rejectIfAny.mp accepted
  exact ⟨expanded, shorthand, augmented⟩

end Editing

/-- Expansion of shorthand keeps the start symbol and does not take the last rule. -/
theorem Pass.shorthand_keeps (limits : Limits) (some : g.rules ≠ []) :
    let expanded := ((Pass.single .shorthand).run limits g).grammar
    expanded.start = g.start ∧ expanded.rules ≠ [] := by
  obtain ⟨rule, member⟩ := List.exists_mem_of_ne_nil _ some
  have path : Path (· = .shorthand) g _ ((Pass.single .shorthand).run limits g).grammar :=
    Editing.traced_expandShorthand
  have headed : rule.head ∈ ((Pass.single .shorthand).run limits g).grammar.heads :=
    path.invariant (I := fun g => rule.head ∈ g.heads)
      (fun kinds change headed => change.mem_heads (by simp [kinds]) headed) (head_mem_heads member)
  refine ⟨?_, fun empty => ?_⟩
  · exact path.invariant (I := fun g' => g'.start = g.start)
      (fun kinds change same => (change.start_eq (by simp [kinds])).trans same) rfl
  · obtain ⟨_, left, _⟩ := mem_heads.mp headed
    simp [empty] at left

/-- Where a grammar with rules is prepared for a table generator, the start symbol of the result
has one rule, whose body is a single non-terminal. It occurs in a body of the result if and only if
the start symbol of the given grammar had such a rule as its only one when the shorthand was
expanded, and occurred in a body then. If it had such a rule it is the start symbol of the result
as well. If not, that is a fresh one, which leads to it and occurs in no body. -/
theorem Pass.prepareLR1_start (limits : Limits) (g : Grammar) (some : g.rules ≠ [])
    (ended : (Pass.prepareLR1.run limits g).outcome = .ok ()) :
    let expanded := ((Pass.single .shorthand).run limits g).grammar
    let result := (Pass.prepareLR1.run limits g).grammar
    ∃ given start target, g.start = .some given ∧ result.start = .some start ∧
      result.rulesOf start = [⟨start, .nonTerminal target, []⟩] ∧
      (result.OccursIn start ↔ expanded.HasSingleUnit given ∧ expanded.OccursIn given) ∧
      (expanded.HasSingleUnit given ∧ start = given ∨
        ¬ expanded.HasSingleUnit given ∧ start ∉ expanded.names ∧ target = given ∧
          ¬ result.OccursIn start) := by
  intro expanded result
  obtain ⟨_, ⟨_, rfl⟩, augmented⟩ := Editing.prepareLR1_leaves ⟨ended, rfl⟩
  obtain ⟨kept, rules⟩ := Pass.shorthand_keeps limits some
  obtain ⟨given, start, target, chosen, rest⟩ := Editing.augmentStart_leaves augmented rules
  exact ⟨given, start, target, kept ▸ chosen, rest⟩

/-- `O → Q`, `Q → O x` and `Q → b`. -/
def Grammar.recurrent : Grammar :=
  .ofRules [⟨⟨"O", by decide⟩, .nonTerminal ⟨"Q", by decide⟩, []⟩,
    ⟨⟨"Q", by decide⟩, .nonTerminal ⟨"O", by decide⟩, [.terminal ⟨"x", none⟩]⟩,
    ⟨⟨"Q", by decide⟩, .terminal ⟨"b", none⟩, []⟩] none

/-- The start symbol of `recurrent` is left alone, and that of `entwined` gets a fresh one in front
of it. -/
theorem Pass.prepareLR1_recurrent :
    (recurrent.rules ≠ [] ∧ (Pass.prepareLR1.run (.ofCounts 1 1) recurrent).outcome = .ok () ∧
      let result := (Pass.prepareLR1.run (.ofCounts 1 1) recurrent).grammar
      ∃ start target, recurrent.start = some start ∧ result.start = some start ∧
        result.rulesOf start = [⟨start, .nonTerminal target, []⟩] ∧ result.OccursIn start) ∧
    (entwined.rules ≠ [] ∧ (Pass.prepareLR1.run (.ofCounts 1 1) entwined).outcome = .ok () ∧
      let result := (Pass.prepareLR1.run (.ofCounts 1 1) entwined).grammar
      ∃ given start, entwined.start = some given ∧ result.start = some start ∧
        start ∉ entwined.names ∧ result.rulesOf start = [⟨start, .nonTerminal given, []⟩] ∧
          ¬ result.OccursIn start) := by
  have rules : recurrent.rules ≠ [] ∧ entwined.rules ≠ [] := by decide
  have ended : (Pass.prepareLR1.run (.ofCounts 1 1) recurrent).outcome = .ok () := by cbv
  have finished : (Pass.prepareLR1.run (.ofCounts 1 1) entwined).outcome = .ok () := by cbv
  refine ⟨⟨rules.1, ended, ?_⟩, rules.2, finished, ?_⟩
  · obtain ⟨given, start, target, chosen, now, alone, occurs, kept⟩ :=
      Pass.prepareLR1_start _ _ rules.1 ended
    have same : ((Pass.single .shorthand).run (.ofCounts 1 1) recurrent).grammar = recurrent := by
      cbv
    rw [same] at occurs kept
    obtain ⟨single, inside⟩ : recurrent.HasSingleUnit given ∧ recurrent.OccursIn given := by
      cases chosen
      exact ⟨⟨_, rfl, rfl⟩, _, List.mem_cons_of_mem _ List.mem_cons_self, by decide⟩
    obtain ⟨_, rfl⟩ := kept.resolve_right fun added => added.1 single
    exact ⟨start, target, chosen, now, alone, occurs.mpr ⟨single, inside⟩⟩
  · obtain ⟨given, start, target, chosen, now, alone, _, kept⟩ :=
      Pass.prepareLR1_start _ _ rules.2 finished
    have same : ((Pass.single .shorthand).run (.ofCounts 1 1) entwined).grammar = entwined := by
      cbv
    rw [same] at kept
    have several : ¬ entwined.HasSingleUnit given := by
      cases chosen
      rintro ⟨rule, single, _⟩
      have two := congrArg List.length single
      cases two
    obtain ⟨_, new, rfl, absent⟩ := kept.resolve_left fun left => several left.1
    exact ⟨target, start, chosen, now, new, alone, absent⟩

/-- The start symbol `O` is taken for an augmented one and stays in the body of `Q → O x`. -/
theorem Pass.prepareLR1_recurrent_start :
    recurrent.rules ≠ [] ∧ (Pass.prepareLR1.run (.ofCounts 1 1) recurrent).outcome = .ok () ∧
      (Pass.prepareLR1.run (.ofCounts 1 1) recurrent).grammar.start = some ⟨"O", by decide⟩ ∧
      (Pass.prepareLR1.run (.ofCounts 1 1) recurrent).grammar.OccursIn ⟨"O", by decide⟩ := by
  have same : (Pass.prepareLR1.run (.ofCounts 1 1) recurrent).grammar = recurrent := by cbv
  refine ⟨by decide, by cbv, by rw [same]; rfl, ?_⟩
  rw [same]
  exact ⟨_, List.mem_cons_of_mem _ List.mem_cons_self, by decide⟩

end Ebnf
