import Mathlib
import Ebnf.Proofs.Analysis.Layers
import Ebnf.Proofs.Pass.Removal

/-! What the start symbol reaches, and what is removed because it does not. The list of what is
reached is exact and in the order of distance from the start symbol. Removal goes by that list, so
it keeps the rules whose heads are listed as they stand and tells of each other rule that it is
gone. -/
namespace Ebnf

open Grammar Editing

variable {g : Grammar} {start : Name}

/-- In a grammar without shorthand that starts from a head, the list of what can be reached begins
with the start symbol and has each non-terminal that occurs in a sentence derived from it once, the
nearest first: the distance of a non-terminal is the number of rules along a shortest chain in which
each mentions the head of the next, or in the end that non-terminal. Removal of unreachable rules
keeps the rules whose heads are listed and commits one record for each of the others, both in the
order of the grammar. -/
theorem Pass.unreachable_nearestFirst (plain : g.hasShorthand = false)
    (chosen : g.start = some start) (headed : start ∈ g.heads) (limits : Limits) :
    let r := (Pass.single .unreachable).run limits g
    ∃ reached, g.reachable = .ok reached ∧
      (reached.Nodup ∧ reached.head? = some start ∧ ∀ n, n ∈ reached ↔ g.Reaches start n) ∧
      (∃ distance : Name → Nat,
        (∀ n ∈ reached, Distant (Mentioning g.mentions) start (distance n) n) ∧
          reached.Pairwise (distance · ≤ distance ·)) ∧
      r.outcome = .ok () ∧ r.grammar = ⟨g.rules.filter (·.head ∈ reached), g.start⟩ ∧
        r.records = (g.rules.filter (·.head ∉ reached)).map
          fun rule => ⟨rule, [], .unreachableRemoval⟩ := by
  intro r
  have started : g.requireStart = .ok start := requireStart_eq_ok.mpr ⟨chosen, fun _ => headed⟩
  obtain ⟨reached, found⟩ := reachable_of_requireStart plain started
  obtain ⟨_, first, started', reached_iff⟩ := reachable_eq_ok found
  obtain rfl : start = first := Except.ok.inj (started.symm.trans started')
  obtain ⟨apart, begun, ordered⟩ := reachable_ordered found started
  obtain ⟨ended, left⟩ := leaves_removeUnreachable found
  have dropped : g.dropped (· ∈ reached) = g.rules.filter (·.head ∉ reached) := by
    simp [Grammar.dropped]
  refine ⟨reached, found, ⟨apart, begun, fun n => ?_⟩, ordered, ended, left, ?_⟩
  · rw [reached_iff, reaches_iff]
  · rw [← dropped]
    exact records_removeUnreachable found

/-- `gate → yard barn`, `yard → loft`, `loft → gate yard`, `barn → well` without a rule for `well`,
and `attic → loft` twice, which nothing mentions. -/
def Grammar.farmyard : Grammar :=
  let gate : Name := ⟨"gate", by decide⟩
  let yard : Symbol := .nonTerminal ⟨"yard", by decide⟩
  let loft : Name := ⟨"loft", by decide⟩
  let barn : Name := ⟨"barn", by decide⟩
  let attic : Rule := ⟨⟨"attic", by decide⟩, .nonTerminal loft, []⟩
  .ofRules [⟨gate, yard, [.nonTerminal barn]⟩, attic,
    ⟨⟨"yard", by decide⟩, .nonTerminal loft, []⟩, ⟨loft, .nonTerminal gate, [yard]⟩,
    ⟨barn, .nonTerminal ⟨"well", by decide⟩, []⟩, attic] none

/-- `loft` and `well` are listed behind `barn`, which is nearer to `gate`. -/
theorem Pass.unreachable_farmyard :
    let gate : Name := ⟨"gate", by decide⟩
    let loft : Name := ⟨"loft", by decide⟩
    let reached : List Name :=
      [gate, ⟨"yard", by decide⟩, ⟨"barn", by decide⟩, loft, ⟨"well", by decide⟩]
    let r := (Pass.single .unreachable).run (.ofCounts 1 1) farmyard
    let gone : Record :=
      ⟨⟨⟨"attic", by decide⟩, .nonTerminal loft, []⟩, [], .unreachableRemoval⟩
    (farmyard.hasShorthand = false ∧ farmyard.start = some gate ∧ gate ∈ farmyard.heads) ∧
      (farmyard.reachable = .ok reached ∧ ∀ n, n ∈ reached ↔ farmyard.Reaches gate n) ∧
      (∃ distance : Name → Nat,
        (∀ n ∈ reached, Distant (Mentioning farmyard.mentions) gate (distance n) n) ∧
          reached.Pairwise (distance · ≤ distance ·)) ∧
      r.outcome = .ok () ∧ r.records = [gone, gone] := by
  intro gate loft reached r gone
  have plain : farmyard.hasShorthand = false := by decide
  have headed : gate ∈ farmyard.heads := by decide
  have listed : farmyard.reachable = .ok reached := by cbv
  obtain ⟨_, found, ⟨_, _, exact⟩, ordered, ended, _, records⟩ :=
    Pass.unreachable_nearestFirst plain rfl headed (.ofCounts 1 1)
  obtain rfl := Except.ok.inj (listed.symm.trans found)
  refine ⟨⟨plain, rfl, headed⟩, ⟨listed, exact⟩, ordered, ended, records.trans ?_⟩
  cbv

end Ebnf
