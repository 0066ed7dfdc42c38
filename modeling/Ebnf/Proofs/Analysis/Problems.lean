import Ebnf.Analysis.Problems
import Ebnf.Proofs.Analysis.Cycles
import Ebnf.Proofs.Analysis.Reachability
import Ebnf.Proofs.Analysis.Realizability

/-! What the checks of a grammar find, and when they find nothing: each says it in terms of words,
sentences and leading symbols, and not of the analysis that it was found by. -/
namespace Ebnf

/-- The details of a diagnostic are set without changing anything else. -/
theorem Diagnostic.ofDetails_eq (title : String) (details : List (String × String))
    (evidence : Option Evidence) : (ofDetails title details evidence).title = title ∧
      (ofDetails title details evidence).evidence = evidence := by
  suffices kept : ∀ d : Diagnostic,
      (details.foldl (fun d entry => d.withDetail entry.1 entry.2) d).title = d.title ∧
        (details.foldl (fun d entry => d.withDetail entry.1 entry.2) d).evidence = d.evidence from
    kept ⟨title, [], evidence⟩
  induction details with
  | nil => exact fun d => ⟨rfl, rfl⟩
  | cons entry details ih => exact fun d => ih (d.withDetail entry.1 entry.2)

namespace Grammar

variable {g dead : Grammar} {start : Name}

/-! The rules of heads that lack a property. -/

/-- The other grammar has the rules of those heads that lack a property, in order. -/
def HoldsLacking (g : Grammar) (P : Name → Prop) (dead : Grammar) : Prop :=
  ∃ alive : List Name, (∀ head ∈ g.heads, head ∈ alive ↔ P head) ∧
    dead.rules = g.rules.filter (·.head ∉ alive)

theorem HoldsLacking.eq_nil_iff {P : Name → Prop} (lacking : g.HoldsLacking P dead) :
    dead.rules = [] ↔ ∀ head ∈ g.heads, P head := by
  obtain ⟨alive, exact, rules⟩ := lacking
  simp only [rules, List.filter_eq_nil_iff, decide_eq_true_eq, not_not]
  constructor
  · intro all head headed
    obtain ⟨rule, member, rfl⟩ := mem_heads.mp headed
    exact (exact _ headed).mp (all rule member)
  · intro all rule member
    have headed := head_mem_heads member
    exact (exact _ headed).mpr (all _ headed)

theorem filter_dead {alive : List Name} :
    g.rules.filter (·.head ∈ g.heads.filter (· ∉ alive)) = g.rules.filter (·.head ∉ alive) :=
  List.filter_congr fun rule member => by simp [head_mem_heads member]

theorem unrealizableRules_eq_ok (plain : g.hasShorthand = false) :
    g.unrealizableRules = .ok (g.subset (g.rules.filter (·.head ∉ g.realizableHeads))) := by
  rw [unrealizableRules, unrealizable, realizable_eq_ok plain, ← filter_dead]
  rfl

theorem unrealizableRules_ok (plain : g.hasShorthand = false) :
    ∃ dead, g.unrealizableRules = .ok dead ∧
      g.HoldsLacking (fun head => ∃ w, g.Spells head w) dead :=
  ⟨_, unrealizableRules_eq_ok plain, g.realizableHeads, fun _ _ => mem_realizableHeads plain, rfl⟩

theorem unreachableRules_ok (plain : g.hasShorthand = false)
    (started : g.requireStart = .ok start) :
    ∃ dead, g.unreachableRules = .ok dead ∧ g.HoldsLacking (g.Reaches start) dead := by
  obtain ⟨reached, found⟩ := reachable_of_requireStart plain started
  obtain ⟨_, first, same, reached_iff⟩ := reachable_eq_ok found
  obtain rfl : start = first := Except.ok.inj (started.symm.trans same)
  unfold unreachableRules unreachable
  rw [found]
  exact ⟨_, rfl, reached, fun n _ => (reached_iff n).trans reaches_iff.symm, filter_dead⟩

/-! Problems. -/

theorem deadRules_eq_nil_iff {title : String} : deadRules title dead = [] ↔ dead.rules = [] := by
  unfold deadRules
  split <;> simp [*]

theorem exists_deadRules (title : String) (some : dead.rules ≠ []) :
    ∃ problem, deadRules title dead = [problem] ∧ problem.title = title ∧
      problem.evidence = .some (.productions dead) :=
  ⟨_, if_neg some, Diagnostic.ofDetails_eq _ _ _⟩

theorem leftRecursionProblems_ok (plain : g.hasShorthand = false) :
    ∃ cycles problems, g.leftRecursionCycles = .ok cycles ∧ g.leftRecursionProblems = .ok problems ∧
      (problems = [] ↔ cycles = []) ∧ ∀ problem ∈ problems,
        problem.title = "Left recursion" ∧ problem.evidence = some (.cycles cycles) := by
  obtain ⟨cycles, listed, _⟩ := leftRecursionCycles_ok plain
  unfold leftRecursionProblems
  rw [listed]
  by_cases none : cycles = []
  · exact ⟨cycles, [], rfl, if_pos none, by simp [none], by simp⟩
  · refine ⟨cycles, _, rfl, if_neg none, by simp [none], fun problem only => ?_⟩
    rw [List.mem_singleton.mp only]
    exact Diagnostic.ofDetails_eq _ _ _

/-- The checks of a grammar with a start symbol and without shorthand come to a result. -/
theorem problems_ok (plain : g.hasShorthand = false) (some : g.rules ≠ [])
    (started : g.requireStart = .ok start) : ∃ dead lost recursion,
      g.HoldsLacking (fun head => ∃ w, g.Spells head w) dead ∧
      g.HoldsLacking (g.Reaches start) lost ∧ g.leftRecursionProblems = .ok recursion ∧
      g.problems = .ok (deadRules "Unrealizable productions" dead ++
        deadRules "Unreachable productions" lost ++ recursion) := by
  obtain ⟨dead, unrealizable, spelled⟩ := unrealizableRules_ok plain
  obtain ⟨lost, unreachable, reached⟩ := unreachableRules_ok plain started
  obtain ⟨_, recursion, _, found, _⟩ := leftRecursionProblems_ok plain
  refine ⟨dead, lost, recursion, spelled, reached, found, ?_⟩
  simp [problems, some, unrealizableProblems, unrealizable, unreachableProblems, unreachable, found,
    bind, Except.bind, pure, Except.pure, mapError_ok]

/-- They look for reachable names, so they do not come to one without these conditions. -/
theorem ready_of_problems {problems : List Diagnostic} (found : g.problems = .ok problems)
    (some : g.rules ≠ []) : g.hasShorthand = false ∧ ∃ start, g.requireStart = .ok start := by
  cases search : g.reachable with
  | error e =>
    have failed : g.unreachableProblems = .error e := by
      simp [unreachableProblems, unreachableRules, unreachable, search, bind, Except.bind]
    rw [Grammar.problems, if_neg some, failed] at found
    cases first : g.unrealizableProblems <;>
      simp [first, mapError_ok, mapError_error, bind, Except.bind] at found
  | ok reached =>
    obtain ⟨plain, start, started, _⟩ := reachable_eq_ok search
    exact ⟨plain, start, started⟩

/-- The result is empty if and only if all heads spell words and can be reached, and none leads back
to itself. -/
theorem exists_problems (plain : g.hasShorthand = false) (some : g.rules ≠ [])
    (started : g.requireStart = .ok start) : ∃ problems, g.problems = .ok problems ∧
      (problems = [] ↔ (∀ head ∈ g.heads, ∃ w, g.Spells head w) ∧
        (∀ head ∈ g.heads, g.Reaches start head) ∧ g.Acyclic) := by
  obtain ⟨dead, lost, recursion, spelled, reached, recursive, found⟩ :=
    problems_ok plain some started
  obtain ⟨cycles, problems, listed, same, nothing, _⟩ := leftRecursionProblems_ok plain
  obtain rfl : recursion = problems := Except.ok.inj (recursive.symm.trans same)
  have acyclic : cycles = [] ↔ g.Acyclic := by
    simpa [listed, plain] using leftRecursionCycles_eq_nil_iff (g := g)
  refine ⟨_, found, ?_⟩
  rw [List.append_eq_nil_iff, List.append_eq_nil_iff, deadRules_eq_nil_iff, deadRules_eq_nil_iff,
    spelled.eq_nil_iff, reached.eq_nil_iff, nothing, acyclic, and_assoc]

theorem problems_eq_nil_iff : g.problems = .ok [] ↔ g.rules = [] ∨ g.hasShorthand = false ∧
    (∀ head ∈ g.heads, ∃ w, g.Spells head w) ∧
    (∃ start, g.requireStart = .ok start ∧ ∀ head ∈ g.heads, g.Reaches start head) ∧
    g.Acyclic := by
  by_cases empty : g.rules = []
  · simp [problems, empty, pure, Except.pure]
  · constructor
    · intro none
      obtain ⟨plain, start, started⟩ := ready_of_problems none empty
      obtain ⟨problems, found, nothing⟩ := exists_problems plain empty started
      obtain rfl : problems = [] := Except.ok.inj (found.symm.trans none)
      obtain ⟨spelled, reached, acyclic⟩ := nothing.mp rfl
      exact .inr ⟨plain, spelled, ⟨start, started, reached⟩, acyclic⟩
    · intro sound
      obtain ⟨plain, spelled, ⟨start, started, reached⟩, acyclic⟩ := sound.resolve_left empty
      obtain ⟨problems, found, nothing⟩ := exists_problems plain empty started
      rw [found, nothing.mpr ⟨spelled, reached, acyclic⟩]

theorem Spells.mem_heads {name : Name} {w : List Terminal} (spells : g.Spells name w) :
    name ∈ g.heads := by
  obtain ⟨rule, member, rfl, _⟩ := spells_iff.mp spells
  exact head_mem_heads member

/-- The checks come to a result, which is empty if and only if all heads spell words and can be
reached and none leads back to itself. That a name heads no rule is not among the problems, so
the other names need not spell any word. -/
theorem problems_exact (plain : g.hasShorthand = false) (chosen : g.start = some start)
    (headed : start ∈ g.heads) : ∃ problems, g.problems = .ok problems ∧
    (problems = [] ↔ (∀ head ∈ g.heads, ∃ w, g.Spells head w) ∧
      (∀ head ∈ g.heads, g.Reaches start head) ∧ g.Acyclic) ∧
    ((∀ name ∈ g.names, ∃ w, g.Spells name w) ∧ (∀ head ∈ g.heads, g.Reaches start head) ∧
      g.Acyclic ↔ problems = [] ∧ ∀ name ∈ g.names, name ∈ g.heads) := by
  obtain ⟨rule, member, _⟩ := mem_heads.mp headed
  obtain ⟨problems, found, nothing⟩ := exists_problems plain (List.ne_nil_of_mem member)
    (requireStart_eq_ok.mpr ⟨chosen, fun _ => headed⟩)
  refine ⟨problems, found, nothing, ?_⟩
  rw [nothing]
  constructor
  · rintro ⟨spelled, rest⟩
    refine ⟨⟨fun head headed => spelled head (mem_names_of_mem_heads headed), rest⟩, ?_⟩
    exact fun name named => (spelled name named).elim fun w spells => spells.mem_heads
  · rintro ⟨⟨spelled, rest⟩, defined⟩
    exact ⟨fun name named => spelled name (defined name named), rest⟩

/-- `M → a` and `M → U`, where nothing says what `U` is. -/
def gappy : Grammar :=
  .ofRules [⟨⟨"M", by decide⟩, .terminal ⟨"a", none⟩, []⟩,
    ⟨⟨"M", by decide⟩, .nonTerminal ⟨"U", by decide⟩, []⟩] none

theorem gappy_ready : gappy.hasShorthand = false ∧ gappy.start = some ⟨"M", by decide⟩ ∧
    ⟨"M", by decide⟩ ∈ gappy.heads :=
  ⟨by decide, rfl, mem_heads.mpr ⟨_, List.mem_cons_self, rfl⟩⟩

theorem problems_gappy : (gappy.hasShorthand = false ∧ gappy.start = some ⟨"M", by decide⟩ ∧
    ⟨"M", by decide⟩ ∈ gappy.heads) ∧ ∃ problems, gappy.problems = .ok problems ∧
    (problems = [] ↔ (∀ head ∈ gappy.heads, ∃ w, gappy.Spells head w) ∧
      (∀ head ∈ gappy.heads, gappy.Reaches ⟨"M", by decide⟩ head) ∧ gappy.Acyclic) ∧
    ((∀ name ∈ gappy.names, ∃ w, gappy.Spells name w) ∧
      (∀ head ∈ gappy.heads, gappy.Reaches ⟨"M", by decide⟩ head) ∧ gappy.Acyclic ↔
        problems = [] ∧ ∀ name ∈ gappy.names, name ∈ gappy.heads) := by
  obtain ⟨plain, chosen, headed⟩ := gappy_ready
  exact ⟨gappy_ready, problems_exact plain chosen headed⟩

/-- Nothing is found in `gappy`, although `U` occurs in it and spells no word. -/
theorem gappy_overlooked : gappy.rules ≠ [] ∧ (gappy.hasShorthand = false ∧
    gappy.start = some ⟨"M", by decide⟩ ∧ ⟨"M", by decide⟩ ∈ gappy.heads) ∧
    gappy.problems = .ok [] ∧ ⟨"U", by decide⟩ ∈ gappy.names ∧
      ¬ ∃ w, gappy.Spells ⟨"U", by decide⟩ w := by
  obtain ⟨plain, chosen, headed⟩ := gappy_ready
  have rules (rule : Rule) (member : rule ∈ gappy.rules) :
      rule = ⟨⟨"M", by decide⟩, .terminal ⟨"a", none⟩, []⟩ ∨
        rule = ⟨⟨"M", by decide⟩, .nonTerminal ⟨"U", by decide⟩, []⟩ := by
    simpa [gappy, ofRules] using member
  have alone (head : Name) (listed : head ∈ gappy.heads) : head = ⟨"M", by decide⟩ := by
    obtain ⟨rule, member, rfl⟩ := mem_heads.mp listed
    rcases rules rule member with rfl | rfl <;> rfl
  have unsaid : (⟨"U", by decide⟩ : Name) ∉ gappy.heads := fun listed =>
    absurd (alone _ listed) (by decide)
  refine ⟨by simp [gappy, ofRules], gappy_ready, ?_, by decide, fun ⟨w, spells⟩ =>
    unsaid spells.mem_heads⟩
  have started := requireStart_eq_ok.mpr ⟨chosen, fun _ => headed⟩
  refine problems_eq_nil_iff.mpr (.inr ⟨plain, ?_, ⟨_, started, ?_⟩, ?_⟩)
  · intro head listed
    have letter : (⟨⟨"M", by decide⟩, .terminal ⟨"a", none⟩, []⟩ : Rule) ∈ gappy.rules :=
      List.mem_cons_self
    rw [alone head listed]
    exact ⟨_, spells_of_yields letter (.terminal .nil)⟩
  · intro head listed
    rw [alone head listed]
    exact ⟨_, .refl, List.mem_cons_self⟩
  · intro x around
    obtain ⟨_, leads, _⟩ := Relation.TransGen.head'_iff.mp around
    obtain ⟨_, _, rule, member, _, lead⟩ := Relation.TransGen.tail'_iff.mp around
    rw [alone x leads.mem_heads] at lead
    rcases rules rule member with rfl | rfl <;> simp at lead

end Grammar
end Ebnf
