import Ebnf.Language.Derives
import Ebnf.Language.Yields

/-! The normal form that a deterministic parser needs, said without any of the passes that bring
it about. -/
namespace Ebnf

namespace Grammar

/-- A grammar with rules is in normal form if it starts from a head, is free of shorthand and of
repeated rules, has only heads that can be reached and that spell a word, leads nowhere in a
circle, has no two alternatives of one head that begin alike, and has no unit rules but those of
non-terminals that head nothing. -/
structure InNormalForm (g : Grammar) : Prop where
  start : ∃ start, g.start = some start ∧ start ∈ g.heads
  plain : g.hasShorthand = false
  distinct : g.rules.Nodup
  reached : ∀ start, g.start = some start → ∀ head ∈ g.heads, g.Reaches start head
  spelled : ∀ head ∈ g.heads, ∃ w, g.Spells head w
  acyclic : g.Acyclic
  factored : ∀ i j (hi : i < g.rules.length) (hj : j < g.rules.length), i ≠ j →
    g.rules[i].head = g.rules[j].head → g.rules[i].lead = g.rules[j].lead →
    g.rules[i].lead = .epsilon
  units : ∀ rule ∈ g.rules, ∀ target, rule.unit? = some target → target ∉ g.heads

/-- A grammar is normal if it has no rules or is in normal form. -/
def Normal (g : Grammar) : Prop := g.rules = [] ∨ g.InNormalForm

end Grammar

end Ebnf
