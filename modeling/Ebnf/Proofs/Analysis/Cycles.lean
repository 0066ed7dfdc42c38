import Ebnf.Proofs.Analysis.LeftRecursion

/-! The list of left recursion cycles. Each is a walk around with its leftmost derivations, no two
are made of the same rules, and a rule is on one of them if and only if it leads back to its
head. -/
namespace Ebnf

namespace Cycle

/-- The steps of a cycle are leftmost derivations, each from what the one before it led to, and
they lead from the root alone to a sentence that begins with the root. -/
structure Chained (c : Cycle) : Prop where
  begins : c.first.before = [.nonTerminal c.root]
  leftmost : ∀ step ∈ c.steps,
    step.position = 0 ∧ step.before.head? = some (.nonTerminal step.rule.head)
  follows : c.steps.IsChain fun step next => next.before = step.derived
  ends : c.last.derived.head? = some (.nonTerminal c.root)

variable {s : Sentence} {rule : Rule} {path : List Rule} {root : Name}

theorem derive_leftmost {rest : Sentence} (head : s = .nonTerminal rule.head :: rest) :
    s.derive 0 rule = .ok ⟨rule, s, 0⟩ := by
  subst head
  simp [Sentence.derive, Sentence.derive.place, Symbol.isNonTerminal, Symbol.name?]

theorem head?_strip {a : Symbol} (visible : a ≠ .epsilon) :
    (Sentence.strip (a :: s)).head? = some a := by
  simp [Sentence.strip, visible]

theorem head?_derived {y : Name} {step : Derivation} (leftmost : step.position = 0)
    (lead : step.rule.lead = .nonTerminal y) : step.derived.head? = some (.nonTerminal y) := by
  simp only [Derivation.derived, leftmost, List.take_zero, List.nil_append, Rule.body,
    List.cons_append, lead]
  exact head?_strip (by simp)

theorem stepsFrom_ok (linked : path.IsChain fun rule next => rule.lead = .nonTerminal next.head)
    (fits : ∀ rule ∈ path.head?, s.head? = some (.nonTerminal rule.head)) :
    ∃ steps, stepsFrom s path = .ok steps ∧ steps.map Derivation.rule = path ∧
      (∀ step ∈ steps.head?, step.before = s) ∧
      (∀ step ∈ steps, step.position = 0 ∧ step.before.head? = some (.nonTerminal step.rule.head)) ∧
      steps.IsChain fun step next => next.before = step.derived := by
  induction path generalizing s with
  | nil => exact ⟨[], rfl, rfl, by simp, by simp, .nil⟩
  | cons rule path ih =>
    have head := fits rule rfl
    obtain ⟨rest, begins⟩ := List.head?_eq_some_iff.mp head
    obtain ⟨steps, ran, rules, starts, leftmost, follows⟩ :=
      ih (s := (⟨rule, s, 0⟩ : Derivation).derived) linked.tail fun next second => by
        cases path with
        | nil => cases second
        | cons first path =>
          obtain rfl : first = next := by simpa using second
          exact head?_derived rfl (List.isChain_cons_cons.mp linked).1
    refine ⟨⟨rule, s, 0⟩ :: steps, ?_, by simp [rules], by simp, ?_, ?_⟩
    · rw [stepsFrom, derive_leftmost begins]
      simp [bind, Except.bind, ran, pure, Except.pure]
    · intro step occurs
      rcases List.mem_cons.mp occurs with rfl | later
      · exact ⟨rfl, head⟩
      · exact leftmost step later
    · exact List.isChain_cons.mpr ⟨starts, follows⟩

theorem getLast?_steps (c : Cycle) : c.steps.getLast? = some c.last := by
  obtain ⟨first, others⟩ := c
  cases others with
  | nil => rfl
  | cons second others => simp [steps, last, List.getLast?_eq_getLast_of_ne_nil, List.getLastD]

theorem ofPath_ok {g : Grammar} (trip : g.RoundTrip root path) :
    ∃ c, ofPath root path = .ok c ∧ c.rules = path ∧ g.RoundTrip c.root c.rules ∧ c.Chained := by
  cases path with
  | nil => simpa using trip.begins
  | cons first path =>
    obtain rfl : first.head = root := by simpa using trip.begins
    obtain ⟨steps, ran, rules, starts, leftmost, follows⟩ :=
      stepsFrom_ok (s := [.nonTerminal first.head]) trip.linked (by simp)
    cases steps with
    | nil => cases rules
    | cons step others =>
      let c : Cycle := ⟨step, others⟩
      have rulesEq : c.rules = first :: path := rules
      have rootEq : c.root = first.head := congrArg Rule.head (List.cons.inj rules).1
      have lastMember : c.last ∈ c.steps := List.mem_of_getLast? c.getLast?_steps
      have lead : c.last.rule.lead = .nonTerminal c.root := by
        have closes := trip.closes
        rw [← rulesEq, Cycle.rules, List.getLast?_map, getLast?_steps, ← rootEq] at closes
        simpa using closes
      have ends := head?_derived (leftmost c.last lastMember).1 lead
      refine ⟨c, ?_, rulesEq, rootEq ▸ rulesEq ▸ trip, ?_, leftmost, follows, ends⟩
      · simp only [ofPath, ran, mapError_ok, bind, Except.bind, ofSteps]
        rw [if_pos ends]
        rfl
      · rw [rootEq]
        exact starts step rfl

theorem getLast?_rules (c : Cycle) : c.rules.getLast? = some c.last.rule := by
  rw [rules, List.getLast?_map, getLast?_steps]
  rfl

/-- The rule that closes a cycle of several steps belongs to another head than the root. -/
theorem closing {g : Grammar} {c : Cycle} (trip : g.RoundTrip c.root c.rules)
    (indirect : c.isDirect = false) :
    c.last.rule ∈ g.rules ∧ c.last.rule.lead = .nonTerminal c.root ∧ c.last.rule.head ≠ c.root := by
  have closes := trip.closes
  rw [getLast?_rules] at closes
  refine ⟨trip.rules _ (List.mem_of_getLast? c.getLast?_rules), by simpa using closes, ?_⟩
  obtain ⟨first, others⟩ := c
  have heads := trip.heads
  cases others with
  | nil => cases indirect
  | cons second others =>
    have later : (⟨first, second :: others⟩ : Cycle).last ∈ second :: others := by
      simp only [last, List.getLastD_cons]
      exact List.getLastD_mem_cons
    intro same
    rw [rules, steps, List.map_cons, List.map_cons, List.nodup_cons] at heads
    exact heads.1 (List.mem_map.mpr ⟨_, List.mem_map.mpr ⟨_, later, rfl⟩, same⟩)

end Cycle

theorem mapM_ok {α β ε : Type} {f : α → Except ε β} {k : β → α} {P : β → Prop} {xs : List α}
    (each : ∀ x ∈ xs, ∃ y, f x = .ok y ∧ k y = x ∧ P y) :
    ∃ ys, xs.mapM f = .ok ys ∧ ys.map k = xs ∧ ∀ y ∈ ys, P y := by
  induction xs with
  | nil => exact ⟨[], rfl, rfl, by simp⟩
  | cons x xs ih =>
    obtain ⟨y, made, same, holds⟩ := each x List.mem_cons_self
    obtain ⟨ys, rest, sames, all⟩ := ih fun x later => each x (List.mem_cons_of_mem _ later)
    refine ⟨y :: ys, ?_, by simp [same, sames], by simpa using ⟨holds, all⟩⟩
    rw [List.mapM_cons, made]
    simp [rest, bind, Except.bind, pure, Except.pure]

namespace Grammar

variable {g : Grammar} {root : Name} {path : List Rule} {rule : Rule}

theorem leftRecursivePaths_roundTrip (listed : path ∈ g.leftRecursivePaths) :
    ∃ root, path ∈ g.pathsFrom root ∧ g.RoundTrip root path := by
  obtain ⟨root, _, found⟩ := List.mem_flatMap.mp (mem_of_mem_eraseDupsBy listed)
  exact ⟨root, found, pathsFrom_roundTrip found⟩

theorem leftRecursionCycles_ok (plain : g.hasShorthand = false) :
    ∃ cycles, g.leftRecursionCycles = .ok cycles ∧ cycles.map Cycle.rules = g.leftRecursivePaths ∧
      ∀ c ∈ cycles, g.RoundTrip c.root c.rules ∧ c.Chained := by
  have ready : g.requirePlain = .ok () := by simp [requirePlain, plain]
  unfold leftRecursionCycles
  rw [ready]
  refine mapM_ok fun path listed => ?_
  obtain ⟨root, _, trip⟩ := leftRecursivePaths_roundTrip listed
  cases path with
  | nil => simpa using trip.begins
  | cons first path =>
    obtain rfl : first.head = root := by simpa using trip.begins
    exact Cycle.ofPath_ok trip

theorem leftRecursionCycles_sound {cycles : List Cycle}
    (listed : g.leftRecursionCycles = .ok cycles) :
    g.hasShorthand = false ∧ ∀ c ∈ cycles, g.RoundTrip c.root c.rules := by
  have plain : g.hasShorthand = false := by
    refine Bool.eq_false_iff.mpr fun shorthand => ?_
    simp [leftRecursionCycles, requirePlain, shorthand, mapError_error, bind, Except.bind] at listed
  obtain ⟨cycles', same, _, sound⟩ := leftRecursionCycles_ok plain
  cases listed.symm.trans same
  exact ⟨plain, fun c member => (sound c member).1⟩

/-- A rule is on a path of the list if and only if it leads back to its head. -/
theorem exists_leftRecursivePath_iff {y : Name} (member : rule ∈ g.rules)
    (lead : rule.lead = .nonTerminal y) :
    (∃ path ∈ g.leftRecursivePaths, rule ∈ path) ↔ Relation.ReflTransGen g.Leads y rule.head := by
  constructor
  · rintro ⟨path, listed, occurs⟩
    obtain ⟨root, _, trip⟩ := leftRecursivePaths_roundTrip listed
    obtain ⟨z, same, back⟩ := trip.leads_back occurs
    obtain rfl : y = z := by simpa using lead.symm.trans same
    exact back
  · intro back
    have headed : y ∈ g.heads := by
      rcases back.cases_head with same | ⟨_, next, _⟩
      · exact same ▸ head_mem_heads member
      · exact next.mem_heads
    obtain ⟨path, found, occurs⟩ := exists_mem_pathsFrom member lead back
    obtain ⟨kept, listed, same⟩ :=
      exists_mem_eraseDupsBy (List.mem_flatMap.mpr ⟨y, headed, found⟩)
    exact ⟨kept, listed, (same rule).mpr occurs⟩

theorem leftRecursivePaths_eq_nil_iff : g.leftRecursivePaths = [] ↔ g.Acyclic := by
  constructor
  · intro nothing x around
    obtain ⟨y, leads, back⟩ := Relation.TransGen.head'_iff.mp around
    obtain ⟨rule, member, rfl, lead⟩ := leads
    obtain ⟨path, listed, _⟩ := (exists_leftRecursivePath_iff member lead).mpr back
    simp [nothing] at listed
  · intro acyclic
    rw [List.eq_nil_iff_forall_not_mem]
    intro path listed
    obtain ⟨root, _, trip⟩ := leftRecursivePaths_roundTrip listed
    cases path with
    | nil => simpa using trip.begins
    | cons first path =>
      obtain ⟨y, lead, back⟩ := trip.leads_back List.mem_cons_self
      exact acyclic first.head
        (Relation.TransGen.head'_iff.mpr ⟨y, ⟨first, trip.rules first (by simp), rfl, lead⟩, back⟩)

theorem leftRecursionCycles_eq_nil_iff :
    g.leftRecursionCycles = .ok [] ↔ g.hasShorthand = false ∧ g.Acyclic := by
  constructor
  · intro none
    obtain ⟨plain, _⟩ := leftRecursionCycles_sound none
    obtain ⟨cycles, listed, paths, _⟩ := leftRecursionCycles_ok plain
    obtain rfl : cycles = [] := by simpa [none] using listed.symm
    exact ⟨plain, leftRecursivePaths_eq_nil_iff.mp paths.symm⟩
  · rintro ⟨plain, acyclic⟩
    obtain ⟨cycles, listed, paths, _⟩ := leftRecursionCycles_ok plain
    have none : cycles = [] :=
      List.map_eq_nil_iff.mp (paths.trans (leftRecursivePaths_eq_nil_iff.mpr acyclic))
    rw [listed, none]

/-- The search never fails on a grammar without shorthand. Each cycle that it lists is a walk around
with its derivations, no two are made of the same rules, and a rule is on one of them if and only
if it leads back to its head; so there are none exactly when nothing leads back to itself. -/
theorem leftRecursionCycles_exact (plain : g.hasShorthand = false) :
    ∃ cycles, g.leftRecursionCycles = .ok cycles ∧
      (∀ c ∈ cycles, g.RoundTrip c.root c.rules ∧ c.Chained) ∧
      cycles.Pairwise (fun c d => ¬ ∀ rule, rule ∈ c.rules ↔ rule ∈ d.rules) ∧
      (∀ rule ∈ g.rules, ∀ y, rule.lead = .nonTerminal y →
        ((∃ c ∈ cycles, rule ∈ c.rules) ↔ Relation.ReflTransGen g.Leads y rule.head)) ∧
      (cycles = [] ↔ g.Acyclic) := by
  obtain ⟨cycles, listed, paths, sound⟩ := leftRecursionCycles_ok plain
  refine ⟨cycles, listed, sound, ?_, ?_, ?_⟩
  · have apart := pairwise_eraseDupsBy (g.heads.flatMap g.pathsFrom)
    change g.leftRecursivePaths.Pairwise _ at apart
    rw [← paths] at apart
    exact List.pairwise_map.mp apart
  · intro rule member y lead
    rw [← exists_leftRecursivePath_iff member lead, ← paths]
    simp
  · rw [← leftRecursivePaths_eq_nil_iff, ← paths, List.map_eq_nil_iff]

/-- `A → B x`, `A → a` and `B → A y`. -/
def entwined : Grammar :=
  .ofRules [⟨⟨"A", by decide⟩, .nonTerminal ⟨"B", by decide⟩, [.terminal ⟨"x", none⟩]⟩,
    ⟨⟨"A", by decide⟩, .terminal ⟨"a", none⟩, []⟩,
    ⟨⟨"B", by decide⟩, .nonTerminal ⟨"A", by decide⟩, [.terminal ⟨"y", none⟩]⟩] none

theorem entwined_cycle : entwined.hasShorthand = false ∧
    ∃ cycles, entwined.leftRecursionCycles = .ok cycles ∧ ∃ c ∈ cycles,
      ⟨⟨"B", by decide⟩, .nonTerminal ⟨"A", by decide⟩, [.terminal ⟨"y", none⟩]⟩ ∈ c.rules := by
  have plain : entwined.hasShorthand = false := by decide
  obtain ⟨cycles, listed, _, _, covers, _⟩ := leftRecursionCycles_exact plain
  have closing := covers _ (.tail _ (.tail _ (.head _))) ⟨"A", by decide⟩ rfl
  refine ⟨plain, cycles, listed, closing.mpr (.single ?_)⟩
  exact ⟨_, List.mem_cons_self, rfl, rfl⟩

end Grammar
end Ebnf
