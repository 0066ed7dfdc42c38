import Mathlib
import Ebnf.Proofs.Analysis.Problems
import Ebnf.Proofs.Language.Strategy

/-! Non-terminals from which a word can be derived. The least set that is closed under "a body has
realizable non-terminals only" holds just these: a word that is read off the rules is derived in
finitely many steps, and the words of the parts of a body make up a word of its head. -/
namespace Ebnf.Grammar

variable {g : Grammar}

/-- In a grammar without shorthand the realizable non-terminals are those from which a word can be
derived, each listed once. The unrealizable rules are those of the other heads, in order and as
often as they occur. -/
theorem realizable_exact (plain : g.hasShorthand = false) :
    ∃ names, g.realizable = .ok names ∧ names.Nodup ∧
      (∀ name, name ∈ names ↔ ∃ w, g.DerivesWord [.nonTerminal name] w) ∧
      g.unrealizableRules = .ok (g.subset (g.rules.filter (·.head ∉ names))) := by
  refine ⟨g.realizableHeads, realizable_eq_ok plain, nodup_realizableHeads, fun name => ?_,
    unrealizableRules_eq_ok plain⟩
  rw [mem_realizableHeads plain]
  exact exists_congr fun w => (derivesWord_iff plain rfl).symm

/-- `cave → lamp cave`, `tunnel → y tunnel` twice, `cave → lamp`, `lamp → x` and `shaft → cave coal`
without a rule for `coal`. -/
def mine : Grammar :=
  let cave : Name := ⟨"cave", by decide⟩
  let lamp : Symbol := .nonTerminal ⟨"lamp", by decide⟩
  let tunnel : Name := ⟨"tunnel", by decide⟩
  let dig : Rule := ⟨tunnel, .terminal ⟨"y", none⟩, [.nonTerminal tunnel]⟩
  .ofRules [⟨cave, lamp, [.nonTerminal cave]⟩, dig, ⟨cave, lamp, []⟩,
    ⟨⟨"lamp", by decide⟩, .terminal ⟨"x", none⟩, []⟩, dig,
    ⟨⟨"shaft", by decide⟩, .nonTerminal cave, [.nonTerminal ⟨"coal", by decide⟩]⟩] none

/-- `cave` comes to an end once `lamp` is known to. `tunnel` goes on for ever, and `shaft` gets
stuck. -/
theorem realizable_mine :
    let cave : Name := ⟨"cave", by decide⟩
    let lamp : Name := ⟨"lamp", by decide⟩
    let tunnel : Name := ⟨"tunnel", by decide⟩
    let dig : Rule := ⟨tunnel, .terminal ⟨"y", none⟩, [.nonTerminal tunnel]⟩
    let sink : Rule :=
      ⟨⟨"shaft", by decide⟩, .nonTerminal cave, [.nonTerminal ⟨"coal", by decide⟩]⟩
    mine.hasShorthand = false ∧ mine.realizable = .ok [lamp, cave] ∧
      (∃ w, mine.DerivesWord [.nonTerminal cave] w) ∧
      (¬ ∃ w, mine.DerivesWord [.nonTerminal tunnel] w) ∧
      mine.unrealizableRules = .ok (mine.subset [dig, dig, sink]) := by
  intro cave lamp tunnel dig sink
  have plain : mine.hasShorthand = false := by decide
  have listed : mine.realizable = .ok [lamp, cave] := by cbv
  obtain ⟨names, found, _, exact, rules⟩ := realizable_exact plain
  obtain rfl := Except.ok.inj (listed.symm.trans found)
  have left : mine.rules.filter (·.head ∉ [lamp, cave]) = [dig, dig, sink] := by cbv
  exact ⟨plain, listed, (exact cave).mp (by decide), mt (exact tunnel).mpr (by decide),
    left ▸ rules⟩

end Ebnf.Grammar
