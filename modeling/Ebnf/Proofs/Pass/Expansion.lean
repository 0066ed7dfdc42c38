import Mathlib
import Ebnf.Proofs.Editing.Bounded
import Ebnf.Proofs.Grammar.Marks
import Ebnf.Proofs.Language.Preservation
import Ebnf.Proofs.Pass.Idempotence

/-! What expansion of shorthand comes to. It changes the words of no name, since no change does. And
it ends: a round expands the leftmost shorthand of every rule that has any, so it lowers the number
of marks of each rule, even if the rules that it makes have shorthand that was not there before. -/
namespace Ebnf

open Grammar Editing
open scoped List

variable {g : Grammar} {limits : Limits}

/-- Expansion of shorthand changes the words of no name that the grammar had, with any limits and
however it ends. -/
theorem Pass.shorthand_spells_iff (limits : Limits) {n : Name} (named : n ∈ g.names)
    (w : List Terminal) :
    ((Pass.single .shorthand).run limits g).grammar.Spells n w ↔ g.Spells n w :=
  Pass.single_spells_iff (by decide) False.elim limits named w

/-- `subject → ([a] {b}) object` twice, and `subject → c | object |` with the last bar inside the
second branch. Nothing has `object` as its head. -/
def Grammar.subjects : Grammar :=
  let subject : Name := ⟨"subject", by decide⟩
  let object : Symbol := .nonTerminal ⟨"object", by decide⟩
  let token (text : String) : Symbol := .terminal ⟨text, none⟩
  let nested : Symbol := .bracket .group (.bracket .option (token "a") [])
    [.bracket .repetition (token "b") []]
  .ofRules [⟨subject, nested, [object]⟩, ⟨subject, nested, [object]⟩,
    ⟨subject, .alternative [.symbol (token "c")] [[.symbol object, .bar]], []⟩] none

/-- Both names keep their words when all shorthand is expanded, and when the pass gives up before
that. -/
theorem Pass.shorthand_subjects :
    let ended := (Pass.single .shorthand).run (.ofCounts 4 1) subjects
    let failed := (Pass.single .shorthand).run (.ofCounts 2 1) subjects
    ended.outcome = .ok () ∧
      failed.outcome = .error (.divergence (.single .shorthand) (.int 2) .iterations) ∧
      ∀ n ∈ [⟨"subject", by decide⟩, ⟨"object", by decide⟩], n ∈ subjects.names ∧
        ∀ w, (ended.grammar.Spells n w ↔ subjects.Spells n w) ∧
          (failed.grammar.Spells n w ↔ subjects.Spells n w) := by
  have done : ((Pass.single .shorthand).run (.ofCounts 4 1) subjects).outcome = .ok () := by cbv
  have stopped : ((Pass.single .shorthand).run (.ofCounts 2 1) subjects).outcome =
      .error (.divergence (.single .shorthand) (.int 2) .iterations) := by cbv
  have named : ∀ n ∈ [⟨"subject", by decide⟩, ⟨"object", by decide⟩], n ∈ subjects.names := by
    decide
  intro ended failed
  exact ⟨done, stopped, fun n listed => ⟨named n listed, fun w =>
    ⟨Pass.shorthand_spells_iff (.ofCounts 4 1) (named n listed) w,
      Pass.shorthand_spells_iff (.ofCounts 2 1) (named n listed) w⟩⟩⟩

namespace Editing

variable {rule : Rule} {rest : List Rule} {k : Nat}

/-- In the middle of a round the grammar consists of the rules that are still to come and of others
that have less than a number of marks. -/
structure Lowered (k : Nat) (rest : List Rule) (g : Grammar) : Prop where
  bound : ∀ rule ∈ rest, rule.marks.length ≤ k
  split : ∃ done, g.rules.Perm (rest ++ done) ∧ ∀ rule ∈ done, rule.marks.length < k

theorem Lowered.expandRule (lowered : Lowered k (rule :: rest) g) (positive : 0 < k) :
    ∃ g', (expandRule rule).Leaves g () g' ∧ Lowered k rest g' := by
  obtain ⟨bound, done, split, low⟩ := lowered
  have member : rule ∈ g.rules := split.mem_iff.mpr List.mem_cons_self
  have later : ∀ rule ∈ rest, rule.marks.length ≤ k := fun r listed =>
    bound r (List.mem_cons_of_mem _ listed)
  cases found : g.expansionOf? rule with
  | none =>
    -- A rule without shorthand has no marks at all, so it counts as done.
    refine ⟨g, by simp [Leaves, run_expandRule_none found], later, rule :: done, ?_, ?_⟩
    · exact split.trans List.perm_middle.symm
    · rintro r (_ | ⟨_, listed⟩)
      · simpa [marks_of_expansionOf?_eq_none found] using positive
      · exact low r listed
  | some expansion =>
    refine ⟨_, by rw [Leaves, run_expandRule member found]; exact ⟨rfl, rfl⟩, later,
      expansion.rules ++ done, ?_, ?_⟩
    · have left : (g.rules.erase rule).Perm (rest ++ done) := by simpa using split.erase rule
      calc (g.replaced rule expansion.rules).rules
        _ ~ expansion.rules ++ g.rules.erase rule := replaceFirst_perm member
        _ ~ expansion.rules ++ (rest ++ done) := left.append_left _
        _ ~ rest ++ (expansion.rules ++ done) := List.perm_append_comm_assoc _ _ _
    · intro r listed
      rcases List.mem_append.mp listed with new | old
      · exact Nat.lt_of_lt_of_le (length_marks_lt found new) (bound rule List.mem_cons_self)
      · exact low r old

/-- A round over a grammar with shorthand lowers the bound on the marks of a rule. -/
theorem descends_expandRound :
    Descends expandRound fun k g => ∀ rule ∈ g.rules, rule.marks.length ≤ k := by
  intro k g bound
  simp only [expandRound, leaves_current_bind]
  cases shorthand : g.hasShorthand with
  | false => exact ⟨true, g, leaves_pure.mpr ⟨rfl, rfl⟩, by simp⟩
  | true =>
    have marked : g.marks ≠ [] := fun none => by simp [marks_eq_nil_iff.mp none] at shorthand
    obtain ⟨mark, inside⟩ := List.exists_mem_of_ne_nil _ marked
    obtain ⟨rule, member, listed⟩ := List.mem_flatMap.mp inside
    have positive : 0 < k := Nat.lt_of_lt_of_le (List.length_pos_of_mem listed) (bound rule member)
    have initial : Lowered k g.rules g := ⟨bound, [], by simp, by simp⟩
    obtain ⟨g', left, _, done, split, low⟩ := exists_leaves_forM (f := expandRule) (Lowered k)
      (fun _ _ _ lowered => lowered.expandRule positive) initial
    refine ⟨false, g', leaves_bind_unit.mpr ⟨g', left, leaves_pure.mpr ⟨rfl, rfl⟩⟩, fun _ => ?_⟩
    refine ⟨k - 1, by omega, fun r kept => ?_⟩
    have less := low r (split.mem_iff.mp kept)
    omega

theorem leaves_expandShorthand {rounds : Int} (whole : limits.maxIterations.whole? = some rounds)
    (enough : (g.largest (·.marks.length) : Int) < rounds) :
    ∃ g', (expandShorthand limits).Leaves g () g' :=
  descends_expandRound.perform (fun other => absurd rfl other)
    (fun _ => le_largest (·.marks.length)) whole enough

theorem marks_of_expandShorthand {g' : Grammar} (left : (expandShorthand limits).Leaves g () g') :
    g'.marks = [] :=
  marks_eq_nil_iff.mpr (quiet_expandShorthand.mp (idempotent_expandShorthand g g' left)).2

end Editing

/-- Expansion succeeds if it may go round more often than there are marks in any rule. Then no mark
is left at any depth, and if there were no bars, there is one record for each shorthand. -/
theorem Pass.shorthand_converges {rounds : Int} (whole : limits.maxIterations.whole? = some rounds)
    (enough : (g.largest (·.marks.length) : Int) < rounds) :
    let r := (Pass.single .shorthand).run limits g
    r.outcome = .ok () ∧ r.grammar.marks = [] ∧
      (.bar ∉ g.marks → r.records.length = g.marks.count .shorthand) := by
  intro r
  obtain ⟨_, left⟩ := leaves_expandShorthand whole enough
  have done : r.grammar.marks = [] := marks_of_expandShorthand ⟨left.1, rfl⟩
  refine ⟨left.1, done, fun barless => ?_⟩
  have path : Path (· = .shorthand) g r.events r.grammar := traced_expandShorthand
  have gone := path.marks_perm barless
  rw [done, List.append_nil] at gone
  rw [gone.count_eq, List.count_replicate_self]
  rfl

/-- The rules of `subjects` that have no bar. -/
def Grammar.bracketed : Grammar := .ofRules (subjects.rules.take 2) none

/-- No rule of `subjects` has more than three marks, and there are six in `bracketed`. -/
theorem Pass.shorthand_bracketed :
    let r := (Pass.single .shorthand).run (.ofCounts 4 1) subjects
    let s := (Pass.single .shorthand).run (.ofCounts 4 1) bracketed
    subjects.largest (·.marks.length) = 3 ∧ r.outcome = .ok () ∧ r.grammar.marks = [] ∧
      bracketed.largest (·.marks.length) = 3 ∧ .bar ∉ bracketed.marks ∧
        s.outcome = .ok () ∧ s.grammar.marks = [] ∧ s.records.length = 6 := by
  have three : subjects.largest (·.marks.length) = 3 := by decide
  have again : bracketed.largest (·.marks.length) = 3 := by decide
  have barless : .bar ∉ bracketed.marks := by decide
  have six : bracketed.marks.count .shorthand = 6 := by decide
  have whole : (Limits.ofCounts 4 1).maxIterations.whole? = some 4 := rfl
  have enough : (subjects.largest (·.marks.length) : Int) < 4 := by rw [three]; decide
  have plenty : (bracketed.largest (·.marks.length) : Int) < 4 := by rw [again]; decide
  obtain ⟨ended, none, _⟩ := Pass.shorthand_converges whole enough
  obtain ⟨done, nothing, records⟩ := Pass.shorthand_converges whole plenty
  exact ⟨three, ended, none, again, barless, done, nothing, (records barless).trans six⟩

end Ebnf
