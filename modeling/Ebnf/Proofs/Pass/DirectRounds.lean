import Mathlib
import Ebnf.Proofs.Editing.Bounded
import Ebnf.Proofs.Language.Preservation
import Ebnf.Proofs.Pass.Resolution

/-! How soon the removal of direct left recursion is done. To free a head of it may bring other
recursion to light: of the head, if ε stood before it in an alternative, and of the name that
continues it, if nothing but ε stood behind it. But the rules that are put together hold no ε beside
other symbols, so the next round leaves nothing out, and the rules that it puts together begin as
they did before. -/
namespace Ebnf

open Grammar Editing

variable {g g' : Grammar} {head fresh name : Name} {r : Rule} {k : Nat} {kind : Transformation}

/-! The rules of a name. -/

namespace Grammar

/-- The alternatives of a name agree in whether they begin with it. -/
def Uniform (g : Grammar) (name : Name) : Prop :=
  ∀ rule ∈ g.rulesOf name, ∀ other ∈ g.rulesOf name, rule.isLeftRecursive = other.isLeftRecursive

/-- No ε stands beside other symbols in an alternative of a name. -/
def Stripped (g : Grammar) (name : Name) : Prop :=
  ∀ rule ∈ g.rulesOf name, .epsilon ∈ rule.body → rule.body = [.epsilon]

/-- After `k` rounds nothing is left to do for a name. -/
def ClearsWithin (g : Grammar) : Nat → Name → Prop
  | 0, name => g.Uniform name
  | 1, name => g.Uniform name ∨ g.Stripped name
  | _ + 2, _ => True

theorem uniform_iff :
    g.Uniform name ↔ g.leftRecursiveRulesOf name = [] ∨ g.baseRulesOf name = [] := by
  constructor
  · intro uniform
    by_contra mixed
    obtain ⟨recursive, based⟩ := not_or.mp mixed
    obtain ⟨rule, recurs⟩ := List.exists_mem_of_ne_nil _ recursive
    obtain ⟨base, listed⟩ := List.exists_mem_of_ne_nil _ based
    obtain ⟨member, loop⟩ := mem_leftRecursiveRulesOf.mp recurs
    obtain ⟨known, other⟩ := mem_baseRulesOf.mp listed
    have same := uniform rule (mem_rulesOf.mpr member) base (mem_rulesOf.mpr known)
    rw [loop, other] at same
    cases same
  · rintro (none | none) rule listed other known
    · have all := List.filter_eq_nil_iff.mp none
      rw [Bool.eq_false_iff.mpr (all rule listed), Bool.eq_false_iff.mpr (all other known)]
    · have all := List.filter_eq_nil_iff.mp none
      simp only [Bool.not_eq_true', Bool.not_eq_false] at all
      rw [all rule listed, all other known]

theorem uniform_of_all (none : ∀ rule ∈ g.rulesOf name, rule.isLeftRecursive = false) :
    g.Uniform name :=
  fun rule listed other known => (none rule listed).trans (none other known).symm

theorem Uniform.clearsWithin (uniform : g.Uniform name) (k : Nat) : g.ClearsWithin k name :=
  match k with
  | 0 => uniform
  | 1 => .inl uniform
  | _ + 2 => trivial

theorem ClearsWithin.succ (clears : g.ClearsWithin k name) : g.ClearsWithin (k + 1) name :=
  match k with
  | 0 => .inl clears
  | _ + 1 => trivial

theorem ClearsWithin.congr (same : ∀ r, r ∈ g'.rulesOf name ↔ r ∈ g.rulesOf name)
    (clears : g.ClearsWithin k name) : g'.ClearsWithin k name :=
  match k with
  | 0 => fun rule listed other known =>
    clears rule ((same rule).mp listed) other ((same other).mp known)
  | 1 => clears.imp
    (fun uniform rule listed other known =>
      uniform rule ((same rule).mp listed) other ((same other).mp known))
    fun stripped rule listed => stripped rule ((same rule).mp listed)
  | _ + 2 => trivial

/-! The rules that are put together. -/

/-- A body that the fresh name ends holds no ε. -/
theorem epsilon_notMem_ofBody (s : Sentence) :
    .epsilon ∉ (Rule.ofBody head (Sentence.strip (s ++ [.nonTerminal fresh]))).body := by
  have last : Symbol.nonTerminal fresh ∈
      (s ++ [Symbol.nonTerminal fresh]).filter (· ≠ Symbol.epsilon) := by simp
  rw [Sentence.strip]
  split
  · next none =>
    rw [none] at last
    cases last
  · next some =>
    rw [Rule.body_ofBody some]
    simp

theorem stripped_of_mem_directRecursion (new : r ∈ (g.directRecursion head).rules fresh)
    (hidden : .epsilon ∈ r.body) : r.body = [.epsilon] := by
  rcases mem_directRecursion_rules.mp new with ⟨base, _, rfl⟩ | ⟨tail, _, rfl⟩ | rfl
  · exact absurd hidden (epsilon_notMem_ofBody _)
  · exact absurd hidden (epsilon_notMem_ofBody _)
  · rfl

/-- Where no ε stood beside other symbols, no rule that is put together begins with its head. -/
theorem isLeftRecursive_of_mem_directRecursion (new : g.continuation head ∉ g.names)
    (named : head ∈ g.names) (stripped : g.Stripped head)
    (member : r ∈ (g.directRecursion head).rules (g.continuation head)) :
    r.isLeftRecursive = false := by
  apply Bool.eq_false_iff.mpr
  rw [ne_eq, Rule.isLeftRecursive_iff]
  intro recursive
  rcases mem_directRecursion_rules.mp member with ⟨base, listed, rfl⟩ | ⟨tail, listed, rfl⟩ | rfl
  · obtain ⟨⟨known, same⟩, other⟩ := mem_baseRulesOf.mp listed
    rw [head_closing, same] at recursive
    by_cases hidden : .epsilon ∈ base.body
    · -- The alternative was ε alone, so now it begins with the fresh name.
      have alone : base.body = [.epsilon] := stripped base (mem_rulesOf.mpr ⟨known, same⟩) hidden
      rw [DirectRecursion.closing, alone] at recursive
      have begins : g.continuation head = head := by
        simpa [Sentence.strip, Rule.ofBody] using recursive
      exact new (by rwa [begins])
    · have begins : (DirectRecursion.closing (g.continuation head) base).lead = base.lead :=
        Rule.lead_ofBody_strip (Rule.lead_ne_epsilon hidden)
      rw [begins, ← same, ← Rule.isLeftRecursive_iff, other] at recursive
      cases recursive
  · obtain ⟨⟨⟨known, same⟩, loop⟩, some⟩ := mem_directRecursion_recursive.mp listed
    rw [head_continuing] at recursive
    obtain ⟨a, s, rest⟩ := List.exists_cons_of_ne_nil some
    have inside : a ∈ tail.body := List.mem_cons_of_mem _ (rest ▸ List.mem_cons_self)
    have visible : a ≠ .epsilon := by
      rintro rfl
      have alone := stripped tail (mem_rulesOf.mpr ⟨known, same⟩) inside
      simp [Rule.body, rest] at alone
    rw [DirectRecursion.continuing, rest, List.cons_append, Rule.lead_ofBody_strip visible]
      at recursive
    subst recursive
    exact new (mem_names_of_mem_body known inside)
  · cases recursive

/-- What rules are put together for is one round closer to being done than the head was. -/
theorem clearsWithin_of_put (defined : g.Defined) (mixed : ¬ g.Uniform head)
    (before : g.ClearsWithin (k + 1) head)
    (put : ∀ r ∈ g'.rulesOf name, r ∈ (g.directRecursion head).rules (g.continuation head)) :
    g'.ClearsWithin k name := by
  have new : g.continuation head ∉ g.names := continuation_notMem_names defined
  match k with
  | 0 =>
    have stripped : g.Stripped head := before.resolve_left mixed
    have named : head ∈ g.names := by
      obtain ⟨recursive, _⟩ := not_or.mp (uniform_iff.not.mp mixed)
      obtain ⟨rule, listed⟩ := List.exists_mem_of_ne_nil _ recursive
      obtain ⟨⟨member, rfl⟩, _⟩ := mem_leftRecursiveRulesOf.mp listed
      exact mem_names_of_mem_heads (head_mem_heads member)
    exact uniform_of_all fun r listed =>
      isLeftRecursive_of_mem_directRecursion new named stripped (put r listed)
  | 1 => exact .inr fun r listed => stripped_of_mem_directRecursion (put r listed)
  | _ + 2 => trivial

/-! Rules in the place of those of a head. -/

variable {rules : List Rule}

theorem mem_rulesOf_withRulesOf : r ∈ (g.withRulesOf head rules).rulesOf name ↔
    r ∈ rules ∧ r.head = name ∨ r ∈ g.rulesOf name ∧ name ≠ head := by
  rw [mem_rulesOf, mem_withRulesOf, mem_rulesOf]
  constructor
  · rintro ⟨new | ⟨old, other⟩, rfl⟩
    · exact .inl ⟨new, rfl⟩
    · exact .inr ⟨⟨old, rfl⟩, other⟩
  · rintro (⟨new, rfl⟩ | ⟨⟨old, rfl⟩, other⟩)
    · exact ⟨.inl new, rfl⟩
    · exact ⟨.inr ⟨old, other⟩, rfl⟩

theorem mem_rulesOf_withRulesOf_of_ne (other : name ≠ head)
    (elsewhere : ∀ r ∈ rules, r.head ≠ name) :
    r ∈ (g.withRulesOf head rules).rulesOf name ↔ r ∈ g.rulesOf name := by
  rw [mem_rulesOf_withRulesOf]
  constructor
  · rintro (⟨new, same⟩ | ⟨old, _⟩)
    · exact absurd same (elsewhere r new)
    · exact old
  · exact fun old => .inr ⟨old, other⟩

end Grammar

/-! A step, for one head. -/

/-- `DirectStep g head g'` says that `g'` is `g` with the head freed of direct left recursion, as
far as another alternative makes that possible. -/
inductive DirectStep (g : Grammar) (head : Name) : Grammar → Prop where
  | idle (uniform : g.Uniform head) : DirectStep g head g
  | loops (nothing : (g.directRecursion head).recursive = []) :
      DirectStep g head (g.withRulesOf head (g.baseRulesOf head))
  | direct (mixed : ¬ g.Uniform head) (recursive : (g.directRecursion head).recursive ≠ []) :
      DirectStep g head (g.withRulesOf head ((g.directRecursion head).rules (g.continuation head)))

namespace DirectStep

/-- The head comes one round closer to being done, and so does the name that continues it. All other
names keep their rules. -/
theorem clears (step : DirectStep g head g') (defined : g.Defined)
    (before : g.ClearsWithin (k + 1) head) :
    g'.ClearsWithin k head ∧
      ∀ name ≠ head, g'.ClearsWithin k name ∨ ∀ r, r ∈ g'.rulesOf name ↔ r ∈ g.rulesOf name := by
  cases step with
  | idle uniform => exact ⟨uniform.clearsWithin k, fun _ _ => .inr fun _ => Iff.rfl⟩
  | loops nothing =>
    constructor
    · apply Uniform.clearsWithin
      apply uniform_of_all
      intro rule listed
      rcases mem_rulesOf_withRulesOf.mp listed with ⟨base, _⟩ | ⟨_, other⟩
      · exact (mem_baseRulesOf.mp base).2
      · exact absurd rfl other
    · intro name other
      refine .inr fun r => mem_rulesOf_withRulesOf_of_ne other fun base listed => ?_
      rw [(mem_baseRulesOf.mp listed).1.2]
      exact other.symm
  | direct mixed recursive =>
    constructor
    · apply clearsWithin_of_put defined mixed before
      intro r listed
      rcases mem_rulesOf_withRulesOf.mp listed with ⟨new, _⟩ | ⟨_, other⟩
      · exact new
      · exact absurd rfl other
    · intro name other
      by_cases fresh : name = g.continuation head
      · -- The fresh name had no rules, so it has only those that are put together.
        subst fresh
        refine .inl (clearsWithin_of_put defined mixed before fun r listed => ?_)
        rcases mem_rulesOf_withRulesOf.mp listed with ⟨new, _⟩ | ⟨old, _⟩
        · exact new
        · exact absurd (rulesOf_ne_nil.mp (List.ne_nil_of_mem old)) continuation_notMem_heads
      · refine .inr fun r => mem_rulesOf_withRulesOf_of_ne other fun rule new same => ?_
        rcases head_of_mem_directRecursion new with headed | headed
        · exact other (same.symm.trans headed)
        · exact fresh (same.symm.trans headed)

end DirectStep

namespace Editing

theorem exists_directStep (kind : Transformation) (g : Grammar) (head : Name) :
    ∃ g', DirectStep g head g' ∧ (eliminateDirect kind true head).Leaves g () g' := by
  by_cases recursive : g.leftRecursiveRulesOf head = []
  · exact ⟨g, .idle (uniform_iff.mpr (.inl recursive)), by
      simp [Leaves, run_eliminateDirect_nothing recursive]⟩
  by_cases based : g.baseRulesOf head = []
  · exact ⟨g, .idle (uniform_iff.mpr (.inr based)), by
      simp [Leaves, run_eliminateDirect_baseless based recursive]⟩
  have mixed : ¬ g.Uniform head := by
    rw [uniform_iff]
    exact not_or.mpr ⟨recursive, based⟩
  by_cases nothing : (g.directRecursion head).recursive = []
  · exact ⟨_, .loops nothing, by
      simp [Leaves, run_eliminateDirect_based based recursive, run_removeDirect_loops nothing]⟩
  · exact ⟨_, .direct mixed nothing, by
      simp [Leaves, run_eliminateDirect_based based recursive, run_removeDirect nothing]⟩

/-! Rounds. -/

/-- Each round brings every name closer to being done. -/
theorem leaves_eliminateDirectOnce (kinds : kind.ofLeftRecursion) (defined : g.Defined)
    (before : ∀ name, g.ClearsWithin (k + 1) name) :
    ∃ g', (eliminateDirectOnce kind true).Leaves g () g' ∧ g'.Defined ∧
      ∀ name, g'.ClearsWithin k name := by
  -- The heads to come are those for which a round more may be needed.
  let inv (rest : List Name) (g : Grammar) : Prop := g.Defined ∧
    ∀ name, g.ClearsWithin (k + 1) name ∧ (name ∉ rest → g.ClearsWithin k name)
  have initial : inv g.heads g := by
    refine ⟨defined, fun name => ⟨before name, fun unheaded => Uniform.clearsWithin ?_ k⟩⟩
    intro rule listed
    obtain ⟨member, rfl⟩ := mem_rulesOf.mp listed
    exact absurd (head_mem_heads member) unheaded
  obtain ⟨g', left, defined', all⟩ := exists_leaves_forM inv (fun head rest g held => by
    obtain ⟨defined, all⟩ := held
    obtain ⟨g', step, left⟩ := exists_directStep kind g head
    obtain ⟨done, others⟩ := step.clears defined (all head).1
    refine ⟨g', left, ?_, fun name => ?_⟩
    · exact (left.traced (traced_eliminateDirect kinds)).invariant
        (fun _ change defined => change.defined defined) defined
    · by_cases same : name = head
      · subst same
        exact ⟨done.succ, fun _ => done⟩
      · rcases others name same with clears | kept
        · exact ⟨clears.succ, fun _ => clears⟩
        · refine ⟨(all name).1.congr kept, fun outside => ((all name).2 ?_).congr kept⟩
          exact List.not_mem_cons_of_ne_of_not_mem same outside) initial
  exact ⟨g', left, defined', fun name => (all name).2 List.not_mem_nil⟩

theorem directRound_settles_iff : (g.rules.any fun rule =>
    rule.isLeftRecursive && g.hasBaseCase rule.head) = false ↔ ∀ name, g.Uniform name := by
  simp only [List.any_eq_false, Bool.and_eq_true, not_and, hasBaseCase_iff, not_not]
  constructor
  · intro none name
    refine uniform_iff.mpr (or_iff_not_imp_left.mpr fun recursive => ?_)
    obtain ⟨rule, listed⟩ := List.exists_mem_of_ne_nil _ recursive
    obtain ⟨⟨member, rfl⟩, loop⟩ := mem_leftRecursiveRulesOf.mp listed
    exact none rule member loop
  · intro uniform rule member loop
    refine (uniform_iff.mp (uniform rule.head)).resolve_left (List.ne_nil_of_mem (a := rule) ?_)
    exact mem_leftRecursiveRulesOf.mpr ⟨⟨member, rfl⟩, loop⟩

theorem descends_directRound :
    Descends directRound fun k g => g.Defined ∧ ∀ name, g.ClearsWithin k name := by
  intro k g ⟨defined, before⟩
  unfold directRound
  simp only [leaves_current_bind]
  cases waiting : g.rules.any fun rule => rule.isLeftRecursive && g.hasBaseCase rule.head with
  | false => exact ⟨true, g, leaves_pure.mpr ⟨rfl, rfl⟩, nofun⟩
  | true =>
    obtain ⟨j, rfl⟩ : ∃ j, k = j + 1 := by
      refine Nat.exists_eq_succ_of_ne_zero fun none => ?_
      subst none
      rw [directRound_settles_iff.mpr before] at waiting
      cases waiting
    obtain ⟨g', left, after⟩ : ∃ g',
        (eliminateDirectOnce .directLeftRecursion true).Leaves g () g' ∧
          g'.Defined ∧ ∀ name, g'.ClearsWithin j name :=
      leaves_eliminateDirectOnce trivial defined before
    exact ⟨false, g', leaves_bind_unit.mpr ⟨g', left, leaves_pure.mpr ⟨rfl, rfl⟩⟩,
      fun _ => ⟨j, by omega, after⟩⟩

/-- Where the removal succeeds, no head is left that it could free. -/
theorem removeDirectLeftRecursion_leaves {limits : Limits}
    (left : (removeDirectLeftRecursion limits).Leaves g () g') : ∀ name, g'.Uniform name := by
  obtain ⟨_, worked⟩ := leaves_perform.mp left
  obtain ⟨_, g'', last⟩ := exists_settling_step worked
  rw [directRound, leaves_current_bind] at last
  split at last
  · obtain ⟨_, _, told⟩ := leaves_bind_unit.mp last
    simp at told
  · next none =>
    obtain rfl : g'' = g' := (leaves_pure.mp last).2
    exact directRound_settles_iff.mp (Bool.eq_false_iff.mpr none)

end Editing

/-- The removal of direct left recursion succeeds on every grammar without shorthand in which all
names are defined, if the limit admits three rounds. A rule that begins with its own head then
belongs to one that has no other alternative. -/
theorem Pass.directLeftRecursion_ends (plain : g.hasShorthand = false) (defined : g.Defined)
    {limits : Limits} {rounds : Int} (whole : limits.maxIterations.whole? = some rounds)
    (enough : 3 ≤ rounds) :
    let r := (Pass.single .directLeftRecursion).run limits g
    r.outcome = .ok () ∧ ∀ rule ∈ r.grammar.rules, rule.isLeftRecursive = true →
      ∀ other ∈ r.grammar.rules, other.head = rule.head → other.isLeftRecursive = true := by
  intro r
  obtain ⟨g', left⟩ : ∃ g', (removeDirectLeftRecursion limits).Leaves g () g' :=
    descends_directRound.perform (k := 2) (fun _ => plain) ⟨defined, fun _ => trivial⟩ whole
      (by omega)
  refine ⟨left.1, fun rule member loop other known same => ?_⟩
  have uniform := removeDirectLeftRecursion_leaves ⟨left.1, rfl⟩ rule.head
  rw [← loop]
  exact uniform other (mem_rulesOf.mpr ⟨known, same⟩) rule (mem_rulesOf.mpr ⟨member, rfl⟩)

/-- `echo → ε echo a`, `echo → echo ε` and `echo → b`: the first round brings recursion to light in
the head and in the name that continues it. -/
def Grammar.resounding : Grammar :=
  let echo : Name := ⟨"echo", by decide⟩
  .ofRules [⟨echo, .epsilon, [.nonTerminal echo, .terminal ⟨"a", none⟩]⟩,
    ⟨echo, .nonTerminal echo, [.epsilon]⟩, ⟨echo, .terminal ⟨"b", none⟩, []⟩] none

/-- Two rounds are not enough here. -/
theorem Pass.directLeftRecursion_resounding :
    let run (rounds : Int) := (Pass.single .directLeftRecursion).run (.ofCounts rounds 1) resounding
    (resounding.hasShorthand = false ∧ resounding.Defined) ∧
      (run 2).outcome = .error (.divergence (.single .directLeftRecursion) (.int 2) .iterations) ∧
      (run 3).outcome = .ok () ∧
      ∀ rule ∈ (run 3).grammar.rules, rule.isLeftRecursive = true →
        ∀ other ∈ (run 3).grammar.rules, other.head = rule.head →
          other.isLeftRecursive = true := by
  intro run
  have plain : resounding.hasShorthand = false := by decide
  have defined : resounding.Defined := by
    unfold Grammar.Defined
    decide
  have stopped : (run 2).outcome =
      .error (.divergence (.single .directLeftRecursion) (.int 2) .iterations) := by cbv
  exact ⟨⟨plain, defined⟩, stopped,
    Pass.directLeftRecursion_ends plain defined rfl (by decide)⟩

end Ebnf
