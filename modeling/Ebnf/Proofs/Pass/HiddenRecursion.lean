import Mathlib
import Ebnf.Proofs.Language.Derivations
import Ebnf.Proofs.Pass.NormalForm

/-! What normalization leaves of left recursion. The search for cycles follows leading symbols and
takes no notice of what can vanish, ε itself included, so the left recursion that it misses is
exactly that which goes round past a beginning that vanishes. -/
namespace Ebnf

namespace Grammar

theorem Normal.acyclic {g : Grammar} (normal : g.Normal) : g.Acyclic := by
  rcases normal with empty | form
  · exact acyclic_of_empty empty
  · exact form.acyclic

/-- `V → N V a`, `V → b`, `N → n` and `N → ε`. The circle of `V` is veiled by `N`, which can
vanish. -/
def veiled : Grammar :=
  .ofRules [⟨⟨"V", by decide⟩, .nonTerminal ⟨"N", by decide⟩,
      [.nonTerminal ⟨"V", by decide⟩, .terminal ⟨"a", none⟩]⟩,
    ⟨⟨"V", by decide⟩, .terminal ⟨"b", none⟩, []⟩,
    ⟨⟨"N", by decide⟩, .terminal ⟨"n", none⟩, []⟩,
    ⟨⟨"N", by decide⟩, .epsilon, []⟩] none

theorem veiled_leadsPast : veiled.LeadsPast [.nonTerminal ⟨"N", by decide⟩]
    ⟨"V", by decide⟩ ⟨"V", by decide⟩ := by
  refine ⟨_, List.mem_cons_self, rfl, ⟨[.terminal ⟨"a", none⟩], rfl⟩, ?_⟩
  have ending : (⟨⟨"N", by decide⟩, .epsilon, []⟩ : Rule) ∈ veiled.rules := by
    simp [veiled, ofRules]
  exact Vanishes.of_body ending ⟨_, .refl, by simp [Rule.body, Sentence.visible]⟩

end Grammar

open Grammar

variable {g : Grammar} {limits : Limits}

theorem Editing.normalize_acyclic (ended : (Pass.normalize.run limits g).outcome = .ok ()) :
    (Pass.normalize.run limits g).grammar.Acyclic :=
  (normal_of_quiet (quiet_of_normalize ended)).acyclic

/-- Where normalization succeeds, no non-terminal of the result derives a sentence that begins with
it as it is, and one that derives such a sentence when ε counts as nothing does so by going round
past a beginning of a body that vanishes. So the result is free of left recursion if and only if no
circle goes past such a beginning. -/
theorem Pass.normalize_leftRecursive_iff
    (ended : (Pass.normalize.run limits g).outcome = .ok ()) :
    let r := (Pass.normalize.run limits g).grammar
    (∀ x s, Relation.TransGen r.Step [.nonTerminal x] s → s.head? ≠ some (.nonTerminal x)) ∧
      ∀ x, r.LeftRecursive x ↔ ∃ before y z, before ≠ [] ∧ r.LeadsPast before y z ∧
        Relation.ReflTransGen r.Uncovers x y ∧ Relation.ReflTransGen r.Uncovers z x := by
  intro r
  have acyclic : r.Acyclic := Editing.normalize_acyclic ended
  refine ⟨fun x s derives => acyclic.head?_ne derives, fun x => ?_⟩
  rw [leftRecursive_iff]
  constructor
  · exact acyclic.exists_leadsPast
  · rintro ⟨before, y, z, _, past, there, back⟩
    exact Relation.TransGen.trans_left (.tail' there ⟨before, past⟩) back

theorem Pass.normalize_veiled : (Pass.normalize.run (.ofCounts 1 1) veiled).outcome = .ok () ∧
    let r := (Pass.normalize.run (.ofCounts 1 1) veiled).grammar
    (∀ x s, Relation.TransGen r.Step [.nonTerminal x] s → s.head? ≠ some (.nonTerminal x)) ∧
      ∀ x, r.LeftRecursive x ↔ ∃ before y z, before ≠ [] ∧ r.LeadsPast before y z ∧
        Relation.ReflTransGen r.Uncovers x y ∧ Relation.ReflTransGen r.Uncovers z x := by
  have ended : (Pass.normalize.run (.ofCounts 1 1) veiled).outcome = .ok () := by cbv
  exact ⟨ended, Pass.normalize_leftRecursive_iff ended⟩

/-- Normalization succeeds on `veiled`, finds nothing to do and leaves `V` left-recursive. -/
theorem Pass.normalize_veiled_leftRecursive :
    (Pass.normalize.run (.ofCounts 1 1) veiled).outcome = .ok () ∧
      (Pass.normalize.run (.ofCounts 1 1) veiled).records = [] ∧
        (Pass.normalize.run (.ofCounts 1 1) veiled).grammar.LeftRecursive ⟨"V", by decide⟩ := by
  have same : (Pass.normalize.run (.ofCounts 1 1) veiled).grammar = veiled := by cbv
  refine ⟨by cbv, by cbv, ?_⟩
  rw [same]
  exact leftRecursive_iff.mpr (.single ⟨_, veiled_leadsPast⟩)

end Ebnf
