import Mathlib.Data.List.Basic
import Mathlib.Logic.Function.Basic
import Ebnf.Proofs.Analysis.SharedLeads
import Ebnf.Proofs.Editing.Change
import Ebnf.Proofs.Fresh
import Ebnf.Proofs.Language.Interpretation
import Ebnf.Proofs.Lookup

/-! Rewriting keeps the words of all names that a grammar had. The new grammar keeps the rules that
went, which bounds its words from below; they are bounded from above by the old meaning, in which
a fresh name means what the rewriting lets it stand for. -/
namespace Ebnf

namespace Interpretation

variable {I : Interpretation} {fresh : Name} {words : List Terminal → Prop} {s : Sentence}
  {w : List Terminal}

theorem reads_update (unused : fresh ∉ Symbol.namesIn s) :
    Reads (Function.update I fresh words) s w ↔ I.Reads s w := by
  refine reads_congr fun n named w => ?_
  rw [Function.update_of_ne]
  rintro rfl
  exact unused named

end Interpretation

namespace Rule

theorem body_of_isLeftRecursive {rule : Rule} (recursive : rule.isLeftRecursive = true) :
    rule.body = .nonTerminal rule.head :: rule.rest := by
  rw [body, isLeftRecursive_iff.mp recursive]

end Rule

namespace Grammar

open Interpretation

variable {g g' : Grammar} {n fresh : Name} {w : List Terminal} {words : List Terminal → Prop}
  {rule r : Rule} {rules : List Rule} {head : Name}

/-- Two grammars with the same meaning but for rules that say nothing new. -/
theorem spells_congr_of_keeps (complete : ∀ rule ∈ g.rules, rule ∉ g'.rules → g'.meaning.Keeps rule)
    (sound : ∀ rule ∈ g'.rules, rule ∉ g.rules → g.meaning.Keeps rule) :
    g'.Spells n w ↔ g.Spells n w := by
  refine ⟨spells_least fun rule member => ?_, spells_least fun rule member => ?_⟩
  · by_cases old : rule ∈ g.rules
    · exact g.meaning_models rule old
    · exact sound rule member old
  · by_cases kept : rule ∈ g'.rules
    · exact g'.meaning_models rule kept
    · exact complete rule member kept

/-- The same where the new rules are about a fresh name. -/
theorem spells_congr_of_fresh (words : List Terminal → Prop) (unused : fresh ∉ g.names)
    (complete : ∀ rule ∈ g.rules, rule ∉ g'.rules → g'.meaning.Keeps rule)
    (sound : ∀ rule ∈ g'.rules, rule ∉ g.rules →
      Keeps (Function.update g.meaning fresh words) rule)
    (other : n ≠ fresh) : g'.Spells n w ↔ g.Spells n w := by
  have models : Models (Function.update g.meaning fresh words) g' := by
    intro rule member
    by_cases old : rule ∈ g.rules
    · have absent := fun named => unused (mem_names.mpr ⟨rule, old, named⟩)
      have outside : rule.head ≠ fresh := fun same => absent (same ▸ List.mem_cons_self)
      intro w read
      rw [Function.update_of_ne outside]
      exact g.meaning_models rule old w
        ((reads_update fun named => absent (List.mem_cons_of_mem _ named)).mp read)
    · exact sound rule member old
  refine ⟨fun spelled => ?_, spells_least fun rule member => ?_⟩
  · have meant := spells_least models spelled
    rwa [Function.update_of_ne other] at meant
  · by_cases kept : rule ∈ g'.rules
    · exact g'.meaning_models rule kept
    · exact complete rule member kept

/-! A rule that gives way to others. -/

theorem mem_replaced (member : rule ∈ g.rules) :
    r ∈ (g.replaced rule rules).rules ↔ r ∈ rules ∨ r ∈ g.rules.erase rule :=
  mem_replaceFirst member

theorem mem_replaced_of_ne (old : r ∈ g.rules) (other : r ≠ rule) :
    r ∈ (g.replaced rule rules).rules := by
  by_cases member : rule ∈ g.rules
  · exact (mem_replaced member).mpr (.inr ((List.mem_erase_of_ne other).mpr old))
  · rwa [replaced, replaceFirst_of_notMem member]

theorem mem_of_mem_replaced (new : r ∈ (g.replaced rule rules).rules) : r ∈ rules ∨ r ∈ g.rules :=
  mem_of_mem_replaceFirst new

/-- Rules can give way to what their leading non-terminal stands for, if that is another than their
head: the rules of the non-terminal are all still there to read it. -/
theorem spells_replaced_lead {root : Name} (member : rule ∈ g.rules)
    (lead : rule.lead = .nonTerminal root) (indirect : root ≠ rule.head)
    (from_ : ∀ r ∈ rules, r.head = rule.head ∧ ∃ alternative ∈ g.rulesOf root,
      ∀ I : Interpretation, ∀ w, I.Reads r.body w → I.Reads (alternative.body ++ rule.rest) w)
    (all : ∀ alternative ∈ g.rulesOf root, ∃ r ∈ rules, r.head = rule.head ∧
      ∀ I : Interpretation, ∀ w, I.Reads (alternative.body ++ rule.rest) w → I.Reads r.body w) :
    (g.replaced rule rules).Spells n w ↔ g.Spells n w := by
  have body : rule.body = .nonTerminal root :: rule.rest := by rw [Rule.body, lead]
  apply spells_congr_of_keeps
  · intro r old gone
    obtain rfl : r = rule := by
      by_contra other
      exact gone (mem_replaced_of_ne old other)
    intro w read
    rw [body] at read
    obtain ⟨u, v, rfl, front, back⟩ := reads_cons.mp read
    obtain ⟨alternative, there, same, inner⟩ := spells_iff.mp (reads_nonTerminal.mp front)
    have listed : alternative ∈ g.rulesOf root := by
      rcases mem_of_mem_replaced there with new | old
      · exact absurd (same.symm.trans (from_ alternative new).1) indirect
      · exact mem_rulesOf.mpr ⟨old, same⟩
    obtain ⟨r', new, head, reads⟩ := all alternative listed
    rw [← head]
    exact meaning_models _ r' ((mem_replaced member).mpr (.inl new)) _
      (reads _ _ (inner.append back))
  · intro r new old w read
    obtain ⟨head, alternative, listed, reads⟩ :=
      from_ r ((mem_of_mem_replaced new).resolve_right old)
    obtain ⟨u, v, rfl, inner, back⟩ := reads_append.mp (reads _ _ read)
    obtain ⟨there, same⟩ := mem_rulesOf.mp listed
    rw [head]
    refine g.meaning_models rule member _ ?_
    rw [body]
    exact .nonTerminal (spells_iff.mpr ⟨alternative, there, same, inner⟩) back

theorem spells_unit {target : Name} (member : rule ∈ g.rules) (unit : rule.unit? = some target)
    (other : target ≠ rule.head) :
    (g.replaced rule (g.unitExpansion rule target)).Spells n w ↔ g.Spells n w := by
  obtain ⟨alone, lead⟩ := Rule.unit?_eq_some.mp unit
  refine spells_replaced_lead member lead other (fun r new => ?_) fun alternative listed => ?_
  · obtain ⟨alternative, listed, rfl⟩ := List.mem_map.mp new
    exact ⟨rfl, alternative, listed, fun I w read => by rw [alone, List.append_nil]; exact read⟩
  · refine ⟨_, List.mem_map.mpr ⟨alternative, listed, rfl⟩, rfl, fun I w read => ?_⟩
    rwa [alone, List.append_nil] at read

theorem spells_substitution {root : Name} (member : rule ∈ g.rules)
    (closes : rule.lead = .nonTerminal root) (indirect : rule.head ≠ root) :
    (g.replaced rule (g.substitution root rule)).Spells n w ↔ g.Spells n w := by
  refine spells_replaced_lead member closes indirect.symm (fun r new => ?_)
    fun alternative listed => ?_
  · obtain ⟨alternative, listed, rfl⟩ := List.mem_map.mp (List.mem_eraseDups.mp new)
    exact ⟨Rule.head_ofBody _ _, alternative, listed, fun I w read =>
      reads_strip.mp (reads_ofBody.mp read)⟩
  · exact ⟨_, List.mem_eraseDups.mpr (List.mem_map.mpr ⟨alternative, listed, rfl⟩),
      Rule.head_ofBody _ _, fun I w read => reads_ofBody.mpr (reads_strip.mpr read)⟩

/-! Alternatives that begin with the same symbol. -/

section Factoring

variable {group : LeadGroup}

theorem mem_of_mem_factored (new : r ∈ (g.factored group fresh).rules) :
    r ∈ group.replacements fresh ∨ r ∈ g.rules := by
  rw [factored, ← List.diff_eq_foldl] at new
  have new := List.diff_subset _ _ new
  cases first : group.rules.head? with
  | none => exact .inr (by simpa [first] using new)
  | some rule => exact mem_of_mem_replaceFirst (by simpa [first] using new)

theorem mem_factored_of_notMem (old : r ∈ g.rules) (other : r ∉ group.rules) :
    r ∈ (g.factored group fresh).rules := by
  rw [factored, ← List.diff_eq_foldl]
  refine List.mem_diff_of_mem ?_ fun later => other (List.mem_of_mem_tail later)
  cases first : group.rules.head? with
  | none => exact old
  | some rule => exact mem_replaced_of_ne old fun same => other (same ▸ List.mem_of_head? first)

theorem fresh_mem_names_of_mem_replacements (new : r ∈ group.replacements fresh) :
    fresh ∈ r.names := by
  rcases List.mem_cons.mp new with rfl | suffix
  · simp [LeadGroup.factored, Rule.names, Rule.body, Symbol.namesIn, Symbol.names]
  · obtain ⟨rule, _, rfl⟩ := List.mem_map.mp (List.mem_eraseDups.mp suffix)
    simp [LeadGroup.suffix, Rule.names]

theorem notMem_rules_of_mem_replacements (unused : fresh ∉ g.names)
    (new : r ∈ group.replacements fresh) : r ∉ g.rules := fun old =>
  unused (mem_names.mpr ⟨r, old, fresh_mem_names_of_mem_replacements new⟩)

theorem mem_factored_of_mem (shared : group ∈ g.leadGroupsOf group.head)
    (unused : fresh ∉ g.names) (new : r ∈ group.replacements fresh) :
    r ∈ (g.factored group fresh).rules := by
  have listed : ∀ rule ∈ group.rules, rule ∈ g.rules := fun rule member =>
    (mem_rules_of_leadGroup shared member).1
  have absent := notMem_rules_of_mem_replacements unused new
  rw [factored, ← List.diff_eq_foldl]
  refine List.mem_diff_of_mem ?_ fun later => absent (listed r (List.mem_of_mem_tail later))
  cases first : group.rules.head? with
  | none =>
    obtain ⟨_, _, _, several⟩ := mem_leadGroupsOf.mp shared
    simp [List.head?_eq_none_iff.mp first] at several
  | some rule => exact (mem_replaceFirst (listed rule (List.mem_of_head? first))).mpr (.inl new)

/-- The fresh name stands for what follows the shared symbol in any rule of the group. -/
theorem spells_factored (shared : group ∈ g.leadGroupsOf group.head) (unused : fresh ∉ g.names)
    (other : n ≠ fresh) : (g.factored group fresh).Spells n w ↔ g.Spells n w := by
  refine spells_congr_of_fresh (fun w => ∃ rule ∈ group.rules, g.meaning.Reads rule.rest w) unused
    ?_ ?_ other
  · intro rule old gone
    have member : rule ∈ group.rules := by
      by_contra outside
      exact gone (mem_factored_of_notMem old outside)
    obtain ⟨_, head, lead⟩ := mem_rules_of_leadGroup shared member
    intro w read
    rw [Rule.body, lead] at read
    obtain ⟨u, v, rfl, front, back⟩ := reads_cons.mp read
    have suffix : LeadGroup.suffix fresh rule ∈ group.replacements fresh :=
      List.mem_cons_of_mem _ (List.mem_eraseDups.mpr (List.mem_map.mpr ⟨rule, member, rfl⟩))
    have spelled := meaning_models _ _ (mem_factored_of_mem shared unused suffix) v
      (reads_ofBody.mpr (reads_strip.mpr back))
    rw [LeadGroup.suffix, Rule.head_ofBody] at spelled
    rw [head]
    exact meaning_models _ _ (mem_factored_of_mem shared unused List.mem_cons_self) _
      (front.append (reads_nonTerminal.mpr spelled))
  · intro rule new old w read
    have outside : ∀ rule ∈ group.rules, fresh ∉ rule.names := fun rule member named =>
      unused (mem_names.mpr ⟨rule, (mem_rules_of_leadGroup shared member).1, named⟩)
    rcases List.mem_cons.mp ((mem_of_mem_factored new).resolve_right old) with rfl | suffix
    · obtain ⟨u, v, rfl, front, back⟩ := reads_cons.mp read
      obtain ⟨rule, member, rest⟩ : ∃ rule ∈ group.rules, g.meaning.Reads rule.rest v := by
        simpa using reads_nonTerminal.mp back
      obtain ⟨listed, head, lead⟩ := mem_rules_of_leadGroup shared member
      have absent := outside rule member
      have different : group.head ≠ fresh := fun same =>
        absent (same ▸ head ▸ List.mem_cons_self)
      rw [LeadGroup.factored, Function.update_of_ne different, ← head]
      rw [LeadGroup.factored, ← lead] at front
      have front := (reads_update fun named => absent <| List.mem_cons_of_mem _ <|
        List.mem_append_left _ (by simpa using named)).mp front
      exact g.meaning_models rule listed _ (front.append rest)
    · obtain ⟨rule, member, rfl⟩ := List.mem_map.mp (List.mem_eraseDups.mp suffix)
      have absent := outside rule member
      rw [LeadGroup.suffix, Rule.head_ofBody, Function.update_self]
      refine ⟨rule, member, (reads_update fun named => absent ?_).mp
        (reads_strip.mp (reads_ofBody.mp read))⟩
      exact List.mem_cons_of_mem _ (List.mem_append_right _ named)

end Factoring

/-! Direct left recursion. -/

theorem mem_withRulesOf :
    r ∈ (g.withRulesOf head rules).rules ↔ r ∈ rules ∨ r ∈ g.rules ∧ r.head ≠ head := by
  have split : ∀ (xs : List Rule) (k : Nat), r ∈ xs.take k ++ rules ++ xs.drop k ↔
      r ∈ rules ∨ r ∈ xs := by
    intro xs k
    rw [List.append_assoc, List.mem_append, List.mem_append, or_left_comm, ← List.mem_append,
      List.take_append_drop]
  exact (split _ _).trans (by simp [retain])

theorem mem_directRecursion_recursive : r ∈ (g.directRecursion head).recursive ↔
    ((r ∈ g.rules ∧ r.head = head) ∧ r.isLeftRecursive = true) ∧ r.rest ≠ [] := by
  simp [directRecursion, mem_leftRecursiveRulesOf]

theorem mem_directRecursion_rules : r ∈ (g.directRecursion head).rules fresh ↔
    (∃ rule ∈ g.baseRulesOf head, DirectRecursion.closing fresh rule = r) ∨
      (∃ rule ∈ (g.directRecursion head).recursive, DirectRecursion.continuing fresh rule = r) ∨
      r = DirectRecursion.ending fresh := by
  simp [DirectRecursion.rules, directRecursion]

theorem reads_closing {I : Interpretation} : I.Reads (DirectRecursion.closing fresh rule).body w ↔
    ∃ u v, w = u ++ v ∧ I.Reads rule.body u ∧ I fresh v := by
  simp [DirectRecursion.closing, reads_append]

theorem reads_continuing {I : Interpretation} :
    I.Reads (DirectRecursion.continuing fresh rule).body w ↔
      ∃ u v, w = u ++ v ∧ I.Reads rule.rest u ∧ I fresh v := by
  simp [DirectRecursion.continuing, reads_append]

@[simp] theorem head_closing : (DirectRecursion.closing fresh rule).head = rule.head :=
  Rule.head_ofBody _ _

@[simp] theorem head_continuing : (DirectRecursion.continuing fresh rule).head = fresh :=
  Rule.head_ofBody _ _

/-- The rules that take the place of those of a head belong to it or to its continuation. -/
theorem head_of_mem_directRecursion (new : r ∈ (g.directRecursion head).rules fresh) :
    r.head = head ∨ r.head = fresh := by
  rcases mem_directRecursion_rules.mp new with ⟨rule, base, rfl⟩ | ⟨rule, _, rfl⟩ | rfl
  · exact .inl (head_closing.trans (mem_baseRulesOf.mp base).1.2)
  · exact .inr head_continuing
  · exact .inr rfl

/-- Where nothing but `A → A` is recursive, the other rules already say all. -/
theorem spells_loops (nothing : (g.directRecursion head).recursive = []) :
    (g.withRulesOf head (g.baseRulesOf head)).Spells n w ↔ g.Spells n w := by
  apply spells_congr_of_keeps
  · intro rule old gone w read
    obtain ⟨same, recursive⟩ : rule.head = head ∧ rule.isLeftRecursive = true := by
      by_contra outside
      refine gone (mem_withRulesOf.mpr ?_)
      by_cases same : rule.head = head
      · exact .inl (mem_baseRulesOf.mpr ⟨⟨old, same⟩, by simpa [same] using outside⟩)
      · exact .inr ⟨old, same⟩
    have alone : rule.rest = [] := by
      by_contra more
      have listed := mem_directRecursion_recursive.mpr ⟨⟨⟨old, same⟩, recursive⟩, more⟩
      simp [nothing] at listed
    rw [Rule.body_of_isLeftRecursive recursive, alone] at read
    exact reads_nonTerminal.mp read
  · intro rule new old
    rcases mem_withRulesOf.mp new with base | ⟨other, _⟩
    · exact absurd (mem_baseRulesOf.mp base).1.1 old
    · exact absurd other old

theorem spells_closing {rule : Rule} {u v : List Terminal} (base : rule ∈ g.baseRulesOf head)
    (front : (g.withRulesOf head ((g.directRecursion head).rules fresh)).meaning.Reads rule.body u)
    (back : (g.withRulesOf head ((g.directRecursion head).rules fresh)).Spells fresh v) :
    (g.withRulesOf head ((g.directRecursion head).rules fresh)).Spells head (u ++ v) := by
  let g' := g.withRulesOf head ((g.directRecursion head).rules fresh)
  have new : DirectRecursion.closing fresh rule ∈ g'.rules := mem_withRulesOf.mpr <|
    .inl (mem_directRecursion_rules.mpr (.inl ⟨rule, base, rfl⟩))
  simpa [(mem_baseRulesOf.mp base).1.2] using
    g'.meaning_models _ new _ (reads_closing.mpr ⟨u, v, rfl, front, back⟩)

section Direct

variable (unused : fresh ∉ g.names)

include unused

theorem continuing_of_head_eq (named : rule.head = fresh)
    (new : rule ∈ (g.withRulesOf head ((g.directRecursion head).rules fresh)).rules) :
    (∃ r ∈ (g.directRecursion head).recursive, DirectRecursion.continuing fresh r = rule) ∨
      rule = DirectRecursion.ending fresh := by
  have outside : ∀ r ∈ g.rules, r.head ≠ fresh := fun r old same =>
    unused (mem_names.mpr ⟨r, old, same ▸ List.mem_cons_self⟩)
  rcases mem_withRulesOf.mp new with added | ⟨old, _⟩
  · rcases mem_directRecursion_rules.mp added with ⟨r, base, rfl⟩ | later
    · exact absurd (head_closing.symm.trans named) (outside r (mem_baseRulesOf.mp base).1.1)
    · exact later
  · exact absurd named (outside rule old)

/-- The fresh name begins its own rules at the end only, so what it stands for can also be continued
at the end. This is an induction on how the fresh name spells a word. -/
theorem spells_fresh_append {tail : Rule} {u v : List Terminal}
    (recursive : tail ∈ (g.directRecursion head).recursive)
    (spelled : (g.withRulesOf head ((g.directRecursion head).rules fresh)).Spells fresh u)
    (read : (g.withRulesOf head ((g.directRecursion head).rules fresh)).meaning.Reads tail.rest v) :
    (g.withRulesOf head ((g.directRecursion head).rules fresh)).Spells fresh (u ++ v) := by
  let g' := g.withRulesOf head ((g.directRecursion head).rules fresh)
  have continues : ∀ rule ∈ (g.directRecursion head).recursive, ∀ x y,
      g'.meaning.Reads rule.rest x → g'.Spells fresh y → g'.Spells fresh (x ++ y) := by
    intro rule member x y front back
    have new : DirectRecursion.continuing fresh rule ∈ g'.rules := mem_withRulesOf.mpr <|
      .inl (mem_directRecursion_rules.mpr (.inr (.inl ⟨rule, member, rfl⟩)))
    simpa using g'.meaning_models _ new _ (reads_continuing.mpr ⟨x, y, rfl, front, back⟩)
  let J : Interpretation := fun m w =>
    g'.Spells m w ∧ (m = fresh → g'.Spells fresh (w ++ v))
  suffices models : J.Models g' from (spells_least models spelled).2 rfl
  intro rule new w meant
  have plain : g'.meaning.Reads rule.body w := meant.mono fun _ _ _ known => known.1
  refine ⟨g'.meaning_models rule new w plain, fun named => ?_⟩
  rcases continuing_of_head_eq unused named new with ⟨r, member, rfl⟩ | rfl
  · obtain ⟨x, y, rfl, front, back⟩ := reads_continuing.mp meant
    rw [List.append_assoc]
    exact continues r member x _ (front.mono fun _ _ _ known => known.1) (back.2 rfl)
  · obtain rfl : w = [] := by simpa [DirectRecursion.ending, Rule.body] using meant
    simpa using continues tail recursive v [] read
      (g'.meaning_models _ new _ (by simp [DirectRecursion.ending, Rule.body]))

/-- No word of the head is lost. A rule that begins with it is read by the alternative that spells
what it begins with, and the rest is taken up by the fresh name. -/
theorem keeps_direct (old : rule ∈ g.rules)
    (gone : rule ∉ (g.withRulesOf head ((g.directRecursion head).rules fresh)).rules) :
    (g.withRulesOf head ((g.directRecursion head).rules fresh)).meaning.Keeps rule := by
  let g' := g.withRulesOf head ((g.directRecursion head).rules fresh)
  intro w read
  have same : rule.head = head := by
    by_contra different
    exact gone (mem_withRulesOf.mpr (.inr ⟨old, different⟩))
  rw [same]
  by_cases recursive : rule.isLeftRecursive = true
  · rw [Rule.body_of_isLeftRecursive recursive, same] at read
    obtain ⟨u, v, rfl, front, back⟩ := reads_cons.mp read
    have front := reads_nonTerminal.mp front
    by_cases alone : rule.rest = []
    · obtain rfl : v = [] := by simpa [alone] using back
      simpa using front
    · have member := mem_directRecursion_recursive.mpr ⟨⟨⟨old, same⟩, recursive⟩, alone⟩
      obtain ⟨first, new, named, inner⟩ := spells_iff.mp front
      rcases mem_withRulesOf.mp new with new | ⟨_, different⟩
      · have different : fresh ≠ head := fun equal =>
          unused (mem_names.mpr ⟨rule, old, equal ▸ same ▸ List.mem_cons_self⟩)
        rcases mem_directRecursion_rules.mp new with ⟨base, listed, rfl⟩ | ⟨r, _, rfl⟩ | rfl
        · obtain ⟨x, y, rfl, begins, ends⟩ := reads_closing.mp inner
          rw [List.append_assoc]
          exact spells_closing listed begins (spells_fresh_append unused member ends back)
        · exact absurd (head_continuing.symm.trans named) different
        · exact absurd named different
      · exact absurd named different
  · have base := mem_baseRulesOf.mpr ⟨⟨old, same⟩, by simpa using recursive⟩
    have last : DirectRecursion.ending fresh ∈ g'.rules := mem_withRulesOf.mpr <|
      .inl (mem_directRecursion_rules.mpr (.inr (.inr rfl)))
    have ends := g'.meaning_models _ last [] (by simp [DirectRecursion.ending, Rule.body])
    simpa using spells_closing base read ends

/-- The new rules hold where the fresh name stands for what can follow any word of the head. -/
theorem keeps_of_mem_directRecursion (new : rule ∈ (g.directRecursion head).rules fresh) :
    Keeps (Function.update g.meaning fresh fun w => ∀ u, g.Spells head u → g.Spells head (u ++ w))
      rule := by
  have outside : ∀ r ∈ g.rules, fresh ∉ r.names := fun r old named =>
    unused (mem_names.mpr ⟨r, old, named⟩)
  intro w read
  rcases mem_directRecursion_rules.mp new with ⟨base, listed, rfl⟩ | ⟨r, member, rfl⟩ | rfl
  · obtain ⟨⟨there, same⟩, _⟩ := mem_baseRulesOf.mp listed
    have absent := outside base there
    have different : base.head ≠ fresh := fun equal => absent (equal ▸ List.mem_cons_self)
    obtain ⟨u, v, rfl, front, back⟩ := reads_closing.mp read
    have front := (reads_update fun named => absent (List.mem_cons_of_mem _ named)).mp front
    rw [Function.update_self] at back
    rw [head_closing, Function.update_of_ne different, same]
    exact back u (same ▸ g.meaning_models base there u front)
  · obtain ⟨⟨⟨there, same⟩, recursive⟩, _⟩ := mem_directRecursion_recursive.mp member
    have absent := outside r there
    obtain ⟨x, y, rfl, front, back⟩ := reads_continuing.mp read
    have front := (reads_update fun named =>
      absent (List.mem_cons_of_mem _ (List.mem_append_right _ named))).mp front
    rw [Function.update_self] at back
    rw [head_continuing, Function.update_self]
    intro u before
    rw [← List.append_assoc]
    refine back _ ?_
    rw [← same] at before ⊢
    refine g.meaning_models r there _ ?_
    rw [Rule.body_of_isLeftRecursive recursive]
    exact .nonTerminal before front
  · obtain rfl : w = [] := by simpa [DirectRecursion.ending, Rule.body] using read
    change Function.update g.meaning fresh _ fresh []
    rw [Function.update_self]
    intro u before
    simpa using before

theorem spells_direct (other : n ≠ fresh) :
    (g.withRulesOf head ((g.directRecursion head).rules fresh)).Spells n w ↔ g.Spells n w := by
  refine spells_congr_of_fresh (fun w => ∀ u, g.Spells head u → g.Spells head (u ++ w)) unused
    (fun rule old gone => keeps_direct unused old gone) ?_ other
  intro rule new old
  exact keeps_of_mem_directRecursion unused <|
    (mem_withRulesOf.mp new).resolve_right fun kept => old kept.1

end Direct

/-! Rules that are left out or put in front. -/

theorem spells_eraseDups : ({ g with rules := g.rules.eraseDups } : Grammar).Spells n w ↔
    g.Spells n w :=
  spells_congr_of_keeps (fun _ old gone => absurd (List.mem_eraseDups.mpr old) gone)
    fun _ new old => absurd (List.mem_eraseDups.mp new) old

/-- Names that mention no others than kept ones do not miss the rest. -/
theorem spells_retain {keep : Name → Bool} (closed : ∀ rule ∈ g.rules, keep rule.head = true →
    ∀ n ∈ Symbol.namesIn rule.body, keep n = true) (kept : keep n = true) :
    (g.retain keep).Spells n w ↔ g.Spells n w := by
  have fewer : ∀ rule ∈ (g.retain keep).rules, rule ∈ g.rules := fun rule member =>
    (List.mem_filter.mp member).1
  refine ⟨spells_least fun rule member => g.meaning_models rule (fewer rule member),
    fun spelled => ?_⟩
  let J : Interpretation := fun m w => keep m = true → (g.retain keep).Spells m w
  refine spells_least (I := J) (fun rule member w read headed => ?_) spelled kept
  refine meaning_models _ rule (List.mem_filter.mpr ⟨member, headed⟩) w (read.mono ?_)
  exact fun m named w meant => meant (closed rule member headed m named)

theorem spells_augmented {start : Name} (unused : fresh ∉ g.names) (other : n ≠ fresh) :
    (⟨⟨fresh, .nonTerminal start, []⟩ :: g.rules, some fresh⟩ : Grammar).Spells n w ↔
      g.Spells n w := by
  refine spells_congr_of_fresh (fun w => fresh ≠ start → g.Spells start w) unused ?_ ?_ other
  · exact fun rule old gone => absurd (List.mem_cons_of_mem _ old) gone
  · intro rule new old w read
    obtain rfl := (List.mem_cons.mp new).resolve_right old
    rw [Function.update_self]
    intro different
    have meant := reads_nonTerminal.mp read
    rwa [Function.update_of_ne different.symm] at meant

theorem spells_augmented_start {start : Name} (unused : fresh ∉ g.names) (named : start ∈ g.names) :
    (⟨⟨fresh, .nonTerminal start, []⟩ :: g.rules, some fresh⟩ : Grammar).Spells fresh w ↔
      g.Spells start w := by
  have different : start ≠ fresh := fun same => unused (same ▸ named)
  rw [← spells_augmented unused different, spells_iff]
  constructor
  · rintro ⟨rule, member, head, read⟩
    rcases List.mem_cons.mp member with rfl | old
    · exact reads_nonTerminal.mp read
    · exact absurd (mem_names.mpr ⟨rule, old, head ▸ List.mem_cons_self⟩) unused
  · intro spelled
    exact ⟨_, List.mem_cons_self, rfl, reads_nonTerminal.mpr spelled⟩

end Grammar
end Ebnf
