import Mathlib
import Ebnf.Proofs.Pass.Rejection

/-! What removal of left recursion leaves. It ends when no cycle of the list has a root with another
alternative, and a cycle through several heads is in the list for one of them only. But each head on
such a cycle has another alternative, namely the rule by which the cycle leaves it, so no cycle
through several heads is left, whichever of them it was listed for. -/
namespace Ebnf

open Grammar Editing

namespace Grammar

variable {g : Grammar} {x y : Name}

/-- A head that a cycle leaves for another one is active. -/
theorem active_of_leads (leads : g.Leads x y) (back : Relation.ReflTransGen g.Leads y x)
    (other : y ≠ x) : g.Active x := by
  refine ⟨?_, .head' leads back⟩
  obtain ⟨rule, member, rfl, lead⟩ := leads
  refine baseRulesOf_ne_nil member rfl (Bool.eq_false_iff.mpr fun loop => other ?_)
  exact Symbol.nonTerminal.inj (lead.symm.trans (Rule.isLeftRecursive_iff.mp loop))

/-- Where no head is active, a cycle stays at one head, and that begins all its alternatives. -/
theorem Idle.stays (idle : g.Idle) (leads : g.Leads x y)
    (back : Relation.ReflTransGen g.Leads y x) :
    y = x ∧ ∀ rule ∈ g.rulesOf x, rule.lead = .nonTerminal x := by
  refine ⟨by_contra fun other => idle x (active_of_leads leads back other), ?_⟩
  intro rule listed
  obtain ⟨member, rfl⟩ := mem_rulesOf.mp listed
  by_contra other
  have onward : rule.isLeftRecursive = false :=
    Bool.eq_false_iff.mpr (mt Rule.isLeftRecursive_iff.mp other)
  exact idle rule.head ⟨baseRulesOf_ne_nil member rfl onward, .head' leads back⟩

theorem Idle.acyclic (idle : g.Idle) (spelled : ∀ head ∈ g.heads, ∃ w, g.Spells head w) :
    g.Acyclic := by
  intro x around
  obtain ⟨_, leads, _⟩ := Relation.TransGen.head'_iff.mp around
  exact idle.not_spells around (spelled x leads.mem_heads)

end Grammar

variable {g : Grammar} {limits : Limits}

/-- Where removal of left recursion succeeds, each step of a cycle in the result goes from a head to
itself, and all alternatives of that head begin with it. So if every head of the result spells a
word, nothing leads back to itself, and no cycle is found. -/
theorem Pass.leftRecursion_remaining
    (ended : ((Pass.single .leftRecursion).run limits g).outcome = .ok ()) :
    let r := ((Pass.single .leftRecursion).run limits g).grammar
    (∀ x y, r.Leads x y → Relation.ReflTransGen r.Leads y x →
      y = x ∧ ∀ rule ∈ r.rulesOf x, rule.lead = .nonTerminal x) ∧
    ((∀ head ∈ r.heads, ∃ w, r.Spells head w) → r.Acyclic ∧ r.leftRecursionCycles = .ok []) := by
  intro r
  have quiet : (removeLeftRecursion limits).Quiet r () :=
    idempotent_removeLeftRecursion g r ⟨ended, rfl⟩
  obtain ⟨_, _, _, listed, based⟩ := quiet_removeLeftRecursion.mp quiet
  have idle : r.Idle := idle_of_cycles listed based
  refine ⟨fun x y => idle.stays, fun spelled => ?_⟩
  have acyclic : r.Acyclic := idle.acyclic spelled
  obtain ⟨plain, _⟩ := leftRecursionCycles_sound listed
  exact ⟨acyclic, leftRecursionCycles_eq_nil_iff.mpr ⟨plain, acyclic⟩⟩

/-- A cycle through `clause` and `verb`, and `adverb`, which begins its only rule. -/
def Grammar.clauses : Grammar :=
  let clause : Name := ⟨"clause", by decide⟩
  let verb : Name := ⟨"verb", by decide⟩
  let adverb : Name := ⟨"adverb", by decide⟩
  let token (text : String) : Symbol := .terminal ⟨text, none⟩
  .ofRules [⟨clause, .nonTerminal verb, [token "x"]⟩, ⟨clause, token "y", []⟩,
    ⟨verb, .nonTerminal clause, [token "z"]⟩, ⟨verb, .nonTerminal adverb, []⟩,
    ⟨adverb, .nonTerminal adverb, [token "t"]⟩] none

/-- In `clauses` the loop of `adverb` is left and no other cycle, and none is left in `entwined`,
where every head spells a word. -/
theorem Pass.leftRecursion_clauses :
    let adverb : Name := ⟨"adverb", by decide⟩
    let r := ((Pass.single .leftRecursion).run (.ofCounts 8 8) clauses).grammar
    let s := ((Pass.single .leftRecursion).run (.ofCounts 8 8) entwined).grammar
    (((Pass.single .leftRecursion).run (.ofCounts 8 8) clauses).outcome = .ok () ∧
      r.Leads adverb adverb ∧
      ∀ x y, r.Leads x y → Relation.ReflTransGen r.Leads y x →
        y = x ∧ ∀ rule ∈ r.rulesOf x, rule.lead = .nonTerminal x) ∧
    ((Pass.single .leftRecursion).run (.ofCounts 8 8) entwined).outcome = .ok () ∧
      s.heads.map Name.text = ["A", "B", "B′"] ∧
      (∀ head ∈ s.heads, ∃ w, s.Spells head w) ∧ s.Acyclic ∧
        s.leftRecursionCycles = .ok [] := by
  have ended : ((Pass.single .leftRecursion).run (.ofCounts 8 8) clauses).outcome = .ok () := by cbv
  have done : ((Pass.single .leftRecursion).run (.ofCounts 8 8) entwined).outcome = .ok () := by cbv
  have kept : (⟨⟨"adverb", by decide⟩, .nonTerminal ⟨"adverb", by decide⟩,
      [.terminal ⟨"t", none⟩]⟩ : Rule) ∈
        ((Pass.single .leftRecursion).run (.ofCounts 8 8) clauses).grammar.rules :=
    List.contains_iff_mem.mp (by cbv)
  have plain : ((Pass.single .leftRecursion).run (.ofCounts 8 8) entwined).grammar.hasShorthand =
      false := by cbv
  have found : ((Pass.single .leftRecursion).run (.ofCounts 8 8) entwined).grammar.heads.all
      (· ∈ ((Pass.single .leftRecursion).run (.ofCounts 8 8) entwined).grammar.realizableHeads) =
        true := by cbv
  have headed : ((Pass.single .leftRecursion).run (.ofCounts 8 8) entwined).grammar.heads.map
      Name.text = ["A", "B", "B′"] := by cbv
  intro adverb r s
  have spelled : ∀ head ∈ s.heads, ∃ w, s.Spells head w := fun head member =>
    (mem_realizableHeads plain).mp (of_decide_eq_true (List.all_eq_true.mp found head member))
  obtain ⟨stays, _⟩ := Pass.leftRecursion_remaining ended
  obtain ⟨_, acyclic⟩ := Pass.leftRecursion_remaining done
  exact ⟨⟨ended, ⟨_, kept, rfl, rfl⟩, stays⟩, done, headed, spelled, acyclic spelled⟩

end Ebnf
