import Mathlib
import Ebnf.Proofs.Analysis.Problems
import Ebnf.Proofs.Analysis.Roots
import Ebnf.Proofs.Language.Preservation
import Ebnf.Proofs.Pass.Idempotence

/-! When fixing a grammar fails in the end. Removal of left recursion leaves no head active, and
neither factoring nor removal of rules makes one active. So what still leads back to itself begins
all its rules and spells no word, and a grammar is only ever rejected for heads without words. -/
namespace Ebnf

open Grammar Editing

variable {g g' : Grammar} {start x : Name} {limits : Limits}

namespace Grammar

/-! Grammars without active heads. -/

/-- No head is active. -/
def Idle (g : Grammar) : Prop := ∀ head, ¬ g.Active head

theorem idle_of_cycles {cycles : List Cycle} (listed : g.leftRecursionCycles = .ok cycles)
    (based : ∀ c ∈ cycles, g.hasBaseCase c.root = false) : g.Idle := by
  intro head active
  obtain ⟨plain, _⟩ := leftRecursionCycles_sound listed
  obtain ⟨cycles', same, paths, sound⟩ := leftRecursionCycles_ok plain
  obtain rfl : cycles = cycles' := Except.ok.inj (listed.symm.trans same)
  obtain ⟨_, leads, _⟩ := Relation.TransGen.head'_iff.mp active.2
  obtain ⟨path, found, root, _, trip, other⟩ := exists_path_of_active leads.mem_heads active
  change path ∈ g.leftRecursivePaths at found
  rw [← paths] at found
  obtain ⟨c, known, rfl⟩ := List.mem_map.mp found
  have rooted : root = c.root := Option.some.inj (trip.begins.symm.trans (sound c known).1.begins)
  exact Bool.eq_false_iff.mp (based c known) (hasBaseCase_iff.mpr (rooted ▸ other))

/-- A head all of whose rules begin with itself spells no word. -/
theorem not_spells_of_baseRulesOf_eq_nil (none : g.baseRulesOf x = []) : ¬ ∃ w, g.Spells x w := by
  rintro ⟨w, spells⟩
  refine spells_least (I := fun n _ => n ≠ x) ?_ spells rfl
  intro rule member w read same
  have recursive : rule.isLeftRecursive = true := by
    by_contra other
    have base := mem_baseRulesOf.mpr ⟨⟨member, same⟩, Bool.eq_false_iff.mpr other⟩
    simp [none] at base
  rw [Rule.body, Rule.isLeftRecursive_iff.mp recursive] at read
  obtain ⟨u, _, _, front, _⟩ := Interpretation.reads_cons.mp read
  exact Interpretation.reads_nonTerminal.mp front same

theorem Idle.not_spells (idle : g.Idle) (around : Relation.TransGen g.Leads x x) :
    ¬ ∃ w, g.Spells x w := by
  refine not_spells_of_baseRulesOf_eq_nil (by_contra fun some => ?_)
  exact idle x ⟨some, around⟩

theorem RoundTrip.around {root : Name} {path : List Rule} (trip : g.RoundTrip root path) :
    Relation.TransGen g.Leads root root := by
  obtain ⟨first, member, listed, rfl⟩ := trip.exists_first
  obtain ⟨y, lead, back⟩ := trip.leads_back member
  exact .head' ⟨first, listed, rfl, lead⟩ back

/-- A cycle through several heads would leave its root another alternative. -/
theorem Idle.isDirect (idle : g.Idle) {c : Cycle} (trip : g.RoundTrip c.root c.rules) :
    c.isDirect = true := by
  by_contra indirect
  refine idle c.root ⟨trip.based fun rule alone => indirect ?_, trip.around⟩
  obtain ⟨step, _ | ⟨_, _⟩⟩ := c
  · rfl
  · simp [Cycle.rules, Cycle.steps] at alone

theorem Idle.within (idle : g.Idle) (within : g'.BeginsWithin g) : g'.Idle :=
  fun head active => idle head (within.active active)

theorem beginsWithin_of_subset (fewer : ∀ rule ∈ g'.rules, rule ∈ g.rules) :
    g'.BeginsWithin g where
  old := fun r member _ => ⟨r, fewer r member, rfl, rfl⟩
  known := by
    rintro _ y ⟨r, member, rfl, lead⟩
    exact mem_names_of_mem_body (fewer r member) (lead ▸ List.mem_cons_self)

/-- A factored rule begins like the group, and what stands behind the shared symbol begins with old
names. -/
theorem beginsWithin_factored {group : LeadGroup} {fresh : Name}
    (shared : group ∈ g.leadGroupsOf group.head) (unused : fresh ∉ g.names) :
    (g.factored group fresh).BeginsWithin g := by
  constructor
  · intro r member named
    rcases mem_of_mem_factored member with new | old
    · rcases List.mem_cons.mp new with rfl | suffix
      · obtain ⟨rule, grouped⟩ := exists_mem_leadGroup shared
        obtain ⟨listed, head, lead⟩ := mem_rules_of_leadGroup shared grouped
        exact ⟨rule, listed, head, lead⟩
      · obtain ⟨_, _, rfl⟩ := List.mem_map.mp (List.mem_eraseDups.mp suffix)
        exact absurd named (by rwa [LeadGroup.suffix, Rule.head_ofBody])
    · exact ⟨r, old, rfl, rfl⟩
  · rintro _ y ⟨r, member, rfl, lead⟩
    rcases mem_of_mem_factored member with new | old
    · rcases List.mem_cons.mp new with rfl | suffix
      · obtain ⟨rule, grouped⟩ := exists_mem_leadGroup shared
        obtain ⟨listed, _, same⟩ := mem_rules_of_leadGroup shared grouped
        exact mem_names_of_mem_body listed (same.trans lead ▸ List.mem_cons_self)
      · obtain ⟨rule, grouped, rfl⟩ := List.mem_map.mp (List.mem_eraseDups.mp suffix)
        have first : .nonTerminal y ∈ (LeadGroup.suffix fresh rule).body :=
          lead ▸ List.mem_cons_self
        have inside := (Rule.mem_body_ofBody_strip first).resolve_left (by simp)
        have listed := (mem_rules_of_leadGroup shared grouped).1
        exact mem_names_of_mem_body listed (List.mem_cons_of_mem _ inside)
    · exact mem_names_of_mem_body old (lead ▸ List.mem_cons_self)

/-! What is found in a grammar without active heads. -/

/-- Problems that come down to heads without words: the rules of these heads come first, all rules
can be reached, and what leads back to itself is some of these heads by a single rule. -/
structure BlamesWordless (g : Grammar) (problems : List Diagnostic) : Prop where
  first : ∃ first rest dead, problems = first :: rest ∧
    first.title = "Unrealizable productions" ∧ first.evidence = some (.productions dead) ∧
      g.HoldsLacking (fun head => ∃ w, g.Spells head w) dead
  reached : ∀ problem ∈ problems, problem.title ≠ "Unreachable productions"
  cycles : ∀ problem ∈ problems, problem.title = "Left recursion" →
    ∃ cycles, problem.evidence = some (.cycles cycles) ∧ ∀ c ∈ cycles,
      c.isDirect = true ∧ c.root ∈ g.heads ∧ ¬ ∃ w, g.Spells c.root w

theorem Idle.cycles (idle : g.Idle) {cycles : List Cycle}
    (listed : g.leftRecursionCycles = .ok cycles) : ∀ c ∈ cycles,
      c.isDirect = true ∧ c.root ∈ g.heads ∧ ¬ ∃ w, g.Spells c.root w := by
  intro c known
  have trip := (leftRecursionCycles_sound listed).2 c known
  obtain ⟨_, leads, _⟩ := Relation.TransGen.head'_iff.mp trip.around
  exact ⟨idle.isDirect trip, leads.mem_heads, idle.not_spells trip.around⟩

theorem Idle.problems (idle : g.Idle) (plain : g.hasShorthand = false)
    (reached : g.rules = [] ∨
      ∃ start, g.requireStart = .ok start ∧ ∀ head ∈ g.heads, g.Reaches start head) :
    ∃ problems, g.problems = .ok problems ∧
      (problems = [] ↔ ∀ head ∈ g.heads, ∃ w, g.Spells head w) ∧
        (problems ≠ [] → g.BlamesWordless problems) := by
  by_cases empty : g.rules = []
  · refine ⟨[], problems_eq_nil_iff.mpr (.inl empty), ?_, fun some => absurd rfl some⟩
    simp [heads, empty]
  obtain ⟨start, started, reached⟩ := reached.resolve_left empty
  obtain ⟨dead, lost, recursion, spelled, unreached, recursive, found⟩ :=
    problems_ok plain empty started
  obtain ⟨cycles, problems, listed, same, nothing, described⟩ := leftRecursionProblems_ok plain
  obtain rfl : recursion = problems := Except.ok.inj (recursive.symm.trans same)
  rw [deadRules_eq_nil_iff.mpr (unreached.eq_nil_iff.mpr reached), List.append_nil] at found
  -- If all heads spell words, none is left for a cycle.
  have fewer : dead.rules = [] → recursion = [] := by
    intro all
    refine nothing.mpr (List.eq_nil_iff_forall_not_mem.mpr fun c known => ?_)
    obtain ⟨_, headed, wordless⟩ := idle.cycles listed c known
    exact wordless (spelled.eq_nil_iff.mp all c.root headed)
  refine ⟨_, found, ?_, fun rejected => ?_⟩
  · rw [List.append_eq_nil_iff, deadRules_eq_nil_iff, ← spelled.eq_nil_iff]
    exact and_iff_left_of_imp fewer
  · have some : dead.rules ≠ [] := fun all =>
      rejected (List.append_eq_nil_iff.mpr ⟨deadRules_eq_nil_iff.mpr all, fewer all⟩)
    obtain ⟨first, only, title, evidence⟩ := exists_deadRules "Unrealizable productions" some
    rw [only, List.singleton_append]
    refine ⟨⟨first, recursion, dead, rfl, title, evidence, spelled⟩, ?_, ?_⟩
    · rintro problem (_ | ⟨_, later⟩)
      · simp [title]
      · simp [(described problem later).1]
    · rintro problem (_ | ⟨_, later⟩)
      · simp [title]
      · exact fun _ => ⟨cycles, (described problem later).2, idle.cycles listed⟩

end Grammar

/-! The course of the pass. -/

/-- There is no shorthand, and the start symbol heads a rule. -/
def Grammar.Ready (start : Name) (g : Grammar) : Prop :=
  g.hasShorthand = false ∧ g.start = some start ∧ start ∈ g.heads

theorem Change.ready {kind : Transformation} {events : List Event}
    (change : Change kind g events g') (kinds : kind = .leftRecursion ∨ kind = .sharedLeads)
    (ready : g.Ready start) : g'.Ready start := by
  obtain ⟨plain, chosen, headed⟩ := ready
  have other {avoided : Transformation} (first : .leftRecursion ≠ avoided)
      (second : .sharedLeads ≠ avoided) : kind ≠ avoided := by
    rcases kinds with rfl | rfl
    · exact first
    · exact second
  exact ⟨change.plain (other (by decide) (by decide)) plain,
    (change.start_eq (other (by decide) (by decide))).trans chosen,
    change.mem_heads (other (by decide) (by decide)) headed⟩

theorem Change.idle {events : List Event} (change : Change .sharedLeads g events g')
    (idle : g.Idle) : g'.Idle := by
  cases change with
  | factoring shared => exact idle.within (beginsWithin_factored shared (g.fresh_notMem_names _))
  | loops kinds | direct kinds => exact kinds.elim

namespace Editing

variable {α β : Type} {a : α} {g₁ g₂ g₃ : Grammar}

theorem Leaves.run_bind {x : Editing α} (left : x.Leaves g a g') (f : α → Editing β) :
    (x >>= f) g = (f a g').after (x g).events := by
  rw [run_bind_ok left.1, left.2]

theorem idle_of_removeLeftRecursion (left : (removeLeftRecursion limits).Leaves g () g') :
    g'.Idle := by
  obtain ⟨_, _, _, listed, based⟩ :=
    quiet_removeLeftRecursion.mp (idempotent_removeLeftRecursion g g' left)
  exact idle_of_cycles listed based

theorem idle_of_factorSharedLeads (left : (factorSharedLeads limits).Leaves g () g')
    (idle : g.Idle) : g'.Idle :=
  (left.traced traced_factorSharedLeads).invariant
    (fun same change idle => by subst same; exact change.idle idle) idle

theorem Leaves.ready {x : Editing Unit} {kind : Transformation} (left : x.Leaves g () g')
    (traced : x.Traced (· = kind) g) (kinds : kind = .leftRecursion ∨ kind = .sharedLeads)
    (ready : g.Ready start) : g'.Ready start :=
  (left.traced traced).invariant (fun same change => change.ready (same ▸ kinds)) ready

/-- Removal of unreachable rules does not fail where there is a start symbol. -/
theorem removeUnreachable_ok (plain : g.hasShorthand = false)
    (started : g.requireStart = .ok start) : ∃ g', removeUnreachable.Leaves g () g' := by
  obtain ⟨reached, found⟩ := reachable_of_requireStart plain started
  exact ⟨g.retain (· ∈ reached), leaves_removeUnreachable found⟩

/-- Once the stages are through, it is up to the problems of what they leave. -/
theorem run_fix {problems : List Diagnostic}
    (recursion : (removeLeftRecursion limits).Leaves g () g₁)
    (factored : (factorSharedLeads limits).Leaves g₁ () g₂)
    (pruned : removeUnreachable.Leaves g₂ () g₃) (found : g₃.problems = .ok problems) :
    (fix limits g).grammar = g₃ ∧
      (fix limits g).outcome = if problems = [] then .ok () else .error (.rejection problems) := by
  have pruning : (stage (.single .unreachable) removeUnreachable).Leaves g₂ () g₃ :=
    leaves_stage.mpr pruned
  have remarks : (problems.forM fun problem => remark (.problem problem)).Leaves g₃ () g₃ :=
    leaves_forM_remark.mpr rfl
  unfold fix
  rw [(leaves_stage.mpr recursion).run_bind, (leaves_stage.mpr factored).run_bind,
    pruning.run_bind, run_current_bind, found, run_ofExcept_ok_bind, remarks.run_bind]
  unfold rejectIfAny
  split <;> exact ⟨rfl, rfl⟩

/-- The first two stages leave no head active and the third leaves only rules that can be reached,
so the problems that are found come down to heads without words. -/
theorem exists_fix_outcome (ready : g.Ready start)
    (recursion : (removeLeftRecursion limits).Leaves g () g₁)
    (factored : (factorSharedLeads limits).Leaves g₁ () g₂) :
    let r := fix limits g
    ∃ problems, r.outcome = (if problems = [] then .ok () else .error (.rejection problems)) ∧
      (problems = [] ↔ ∀ head ∈ r.grammar.heads, ∃ w, r.grammar.Spells head w) ∧
        (problems ≠ [] → r.grammar.BlamesWordless problems) := by
  have idle : g₂.Idle := idle_of_factorSharedLeads factored (idle_of_removeLeftRecursion recursion)
  obtain ⟨plain, chosen, headed⟩ : g₂.Ready start :=
    factored.ready traced_factorSharedLeads (.inr rfl)
      (recursion.ready traced_removeLeftRecursion (.inl rfl) ready)
  obtain ⟨g₃, removed⟩ :=
    removeUnreachable_ok plain (requireStart_eq_ok.mpr ⟨chosen, fun _ => headed⟩)
  obtain ⟨_, pruned⟩ := removeUnreachable_leaves removed
  have fewer : ∀ rule ∈ g₃.rules, rule ∈ g₂.rules := fun _ => pruned.sublist.mem
  have idle : g₃.Idle := idle.within (beginsWithin_of_subset fewer)
  obtain ⟨problems, found, nothing, blamed⟩ :=
    idle.problems (plain_of_subset fewer plain) pruned.reached
  obtain ⟨left, ended⟩ := run_fix recursion factored removed found
  intro r
  obtain rfl : g₃ = r.grammar := left.symm
  exact ⟨problems, ended, nothing, blamed⟩

end Editing

/-- Let the first two stages of fixing a grammar with a start symbol and without shorthand succeed.
Then the pass succeeds unless some head of what it leaves spells no word, and rejects the grammar
if one does. It blames these heads, and for nothing but that they spell no word and lead back to
themselves. -/
theorem Pass.fix_rejects (plain : g.hasShorthand = false) (chosen : g.start = some start)
    (headed : start ∈ g.heads)
    (recursion : ((Pass.single .leftRecursion).run limits g).outcome = .ok ())
    (factored : ((Pass.single .sharedLeads).run limits
      ((Pass.single .leftRecursion).run limits g).grammar).outcome = .ok ()) :
    let r := Pass.fix.run limits g
    ((∃ problems, r.outcome = .error (.rejection problems)) ↔
      ∃ head ∈ r.grammar.heads, ¬ ∃ w, r.grammar.Spells head w) ∧
    (r.outcome = .ok () ∨ ∃ problems, r.outcome = .error (.rejection problems)) ∧
    ∀ problems, r.outcome = .error (.rejection problems) → r.grammar.BlamesWordless problems := by
  intro r
  obtain ⟨problems, ended, nothing, blamed⟩ :=
    exists_fix_outcome ⟨plain, chosen, headed⟩ ⟨recursion, rfl⟩ ⟨factored, rfl⟩
  change r.outcome = _ at ended
  by_cases none : problems = []
  · rw [if_pos none] at ended
    have accepted (others : List Diagnostic) : r.outcome ≠ .error (.rejection others) := by
      simp [ended]
    refine ⟨iff_of_false (fun ⟨others, rejected⟩ => accepted others rejected) ?_, .inl ended,
      fun others rejected => absurd rejected (accepted others)⟩
    exact fun ⟨head, headed, wordless⟩ => wordless (nothing.mp none head headed)
  · rw [if_neg none] at ended
    have wordless : ∃ head ∈ r.grammar.heads, ¬ ∃ w, r.grammar.Spells head w := by
      by_contra! all
      exact none (nothing.mpr all)
    refine ⟨iff_of_true ⟨problems, ended⟩ wordless, .inr ⟨problems, ended⟩, fun others same => ?_⟩
    obtain rfl : problems = others := by simpa [ended] using same
    exact blamed none

/-- `T → T x`, `T → a b`, `T → a c`, `T → b W` and `W → W b`. -/
def Grammar.worded : Grammar :=
  let word : Name := ⟨"T", by decide⟩
  let wordless : Name := ⟨"W", by decide⟩
  let token (text : String) : Symbol := .terminal ⟨text, none⟩
  .ofRules [⟨word, .nonTerminal word, [token "x"]⟩, ⟨word, token "a", [token "b"]⟩,
    ⟨word, token "a", [token "c"]⟩, ⟨word, token "b", [.nonTerminal wordless]⟩,
    ⟨wordless, .nonTerminal wordless, [token "b"]⟩] none

/-- The first two stages rewrite the rules of `T`, and the pass fails because of `W`. -/
theorem Pass.fix_worded :
    let limits := Limits.ofCounts 8 8
    let removal := (Pass.single .leftRecursion).run limits worded
    let factoring := (Pass.single .sharedLeads).run limits removal.grammar
    let r := Pass.fix.run limits worded
    (worded.hasShorthand = false ∧ worded.start = some ⟨"T", by decide⟩ ∧
      ⟨"T", by decide⟩ ∈ worded.heads) ∧
    (removal.outcome = .ok () ∧ removal.records.length = 4) ∧
    (factoring.outcome = .ok () ∧ factoring.records.length = 2) ∧
    (⟨"W", by decide⟩ ∈ r.grammar.heads ∧ ¬ ∃ w, r.grammar.Spells ⟨"W", by decide⟩ w) ∧
    ∃ problems, r.outcome = .error (.rejection problems) ∧ r.grammar.BlamesWordless problems := by
  intro limits removal factoring r
  have plain : worded.hasShorthand = false := by decide
  have headed : (⟨"T", by decide⟩ : Name) ∈ worded.heads := mem_heads.mpr ⟨_, .head _, rfl⟩
  have removed : ((Pass.single .leftRecursion).run (.ofCounts 8 8) worded).outcome = .ok () := by
    cbv
  have factored : ((Pass.single .sharedLeads).run (.ofCounts 8 8)
      ((Pass.single .leftRecursion).run (.ofCounts 8 8) worded).grammar).outcome = .ok () := by cbv
  have listed : ⟨"W", by decide⟩ ∈ (Pass.fix.run (.ofCounts 8 8) worded).grammar.heads :=
    List.contains_iff_mem.mp (by cbv)
  have wordless : ¬ ∃ w, (Pass.fix.run (.ofCounts 8 8) worded).grammar.Spells ⟨"W", by decide⟩ w :=
    not_spells_of_baseRulesOf_eq_nil (by cbv)
  obtain ⟨rejects, _, blamed⟩ := Pass.fix_rejects plain rfl headed removed factored
  obtain ⟨problems, rejected⟩ := rejects.mpr ⟨_, listed, wordless⟩
  exact ⟨⟨plain, rfl, headed⟩, ⟨removed, by cbv⟩, ⟨factored, by cbv⟩, ⟨listed, wordless⟩,
    problems, rejected, blamed problems rejected⟩

end Ebnf
