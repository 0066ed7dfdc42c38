import Mathlib
import Ebnf.Proofs.Language.Closure
import Ebnf.Proofs.Pass.Traces

/-! No pass changes the language. Each change keeps all names defined and the words of the start
symbol, and a run is a path of changes, so it does not matter which pass is run, how often its loops
go round, or whether it fails on the way. -/
namespace Ebnf

open Grammar

namespace Change

variable {kind : Transformation} {g g' : Grammar} {events : List Event} {n : Name}
  {w : List Terminal}

/-- Only unreachable heads lose their last rule. -/
theorem mem_heads (change : Change kind g events g') (kept : kind ≠ .unreachable)
    (headed : n ∈ g.heads) : n ∈ g'.heads := by
  cases change with
  | @expansion _ rule expansion member found =>
    obtain ⟨_, _, _, _, _, rules⟩ := expansionOf?_eq_some found
    exact mem_heads_replaced (rules ▸ List.mem_cons_self) (Rule.head_ofBody _ _) headed
  | @unit _ rule target member unit other lost defined =>
    obtain ⟨r, new⟩ := List.exists_mem_of_ne_nil _ defined
    obtain ⟨_, _, rfl⟩ := List.mem_map.mp new
    exact mem_heads_replaced new rfl headed
  | factoring shared => exact mem_heads_factored shared (g.fresh_notMem_names _) headed
  | loops _ based =>
    obtain ⟨base, listed⟩ := List.exists_mem_of_ne_nil _ based
    exact mem_heads_withRulesOf listed (mem_baseRulesOf.mp listed).1.2 headed
  | direct _ based =>
    obtain ⟨r, new, same⟩ := exists_closing based
    exact mem_heads_withRulesOf new same headed
  | @substitution _ root rule member closes indirect defined =>
    obtain ⟨alternative, listed⟩ := List.exists_mem_of_ne_nil _ defined
    exact mem_heads_replaced (List.mem_eraseDups.mpr (List.mem_map.mpr ⟨alternative, listed, rfl⟩))
      (Rule.head_ofBody _ _) headed
  | removal => exact absurd rfl kept
  | deduplication =>
    obtain ⟨rule, member, rfl⟩ := Grammar.mem_heads.mp headed
    exact Grammar.mem_heads.mpr ⟨rule, List.mem_eraseDups.mpr member, rfl⟩
  | augmentation =>
    obtain ⟨rule, member, rfl⟩ := Grammar.mem_heads.mp headed
    exact Grammar.mem_heads.mpr ⟨rule, List.mem_cons_of_mem _ member, rfl⟩

/-- Only the rules of unreachable heads take names with them. -/
theorem keeps_names (change : Change kind g events g') (kept : kind ≠ .unreachable)
    (named : n ∈ g.names) : n ∈ g'.names := by
  have headed {m : Name} (listed : m ∈ g.heads) : m ∈ g'.names :=
    mem_names_of_mem_heads (change.mem_heads kept listed)
  cases change with
  | expansion member found => exact mem_names_expanded member found named
  | @unit _ rule target member unit other lost defined =>
    refine mem_names_replaced (fun m inside => ?_) named
    have parts : m = rule.head ∨ m = target := by
      obtain ⟨alone, lead⟩ := Rule.unit?_eq_some.mp unit
      simpa [Rule.names, Rule.body, alone, lead] using inside
    rcases parts with rfl | rfl
    · exact headed (head_mem_heads member)
    · exact headed (rulesOf_ne_nil.mp fun none => defined (by simp [unitExpansion, none]))
  | factoring shared => exact mem_names_factored shared (g.fresh_notMem_names _) named
  | @loops _ _ head _ based recursive nothing =>
    refine mem_names_withRulesOf (fun r listed m inside => ?_) named
    obtain ⟨member, rfl⟩ := mem_rulesOf.mp listed
    by_cases loop : r.isLeftRecursive = true
    · have recurs : r ∈ g.leftRecursiveRulesOf r.head := List.mem_filter.mpr ⟨listed, loop⟩
      have alone : r.rest = [] := by simpa using List.filter_eq_nil_iff.mp nothing r recurs
      obtain rfl : m = r.head := by simpa [alone] using mem_names_of_recursive recurs inside
      exact headed (head_mem_heads member)
    · have base : r ∈ g.baseRulesOf r.head := List.mem_filter.mpr ⟨listed, by simpa using loop⟩
      exact Grammar.mem_names.mpr ⟨r, mem_withRulesOf.mpr (.inl base), inside⟩
  | direct _ based => exact mem_names_direct based named
  | substitution member closes indirect defined =>
    exact mem_names_substituted member closes indirect defined named
  | removal => exact absurd rfl kept
  | deduplication =>
    obtain ⟨rule, member, inside⟩ := Grammar.mem_names.mp named
    exact Grammar.mem_names.mpr ⟨rule, List.mem_eraseDups.mpr member, inside⟩
  | augmentation =>
    obtain ⟨rule, member, inside⟩ := Grammar.mem_names.mp named
    exact Grammar.mem_names.mpr ⟨rule, List.mem_cons_of_mem _ member, inside⟩

/-- A name that comes in is one that is made up. -/
theorem mem_names (change : Change kind g events g') (named : n ∈ g'.names) :
    n ∈ g.names ∨ .minted n g ∈ events := by
  obtain ⟨rule, new, inside⟩ := Grammar.mem_names.mp named
  by_cases old : rule ∈ g.rules
  · exact .inl (Grammar.mem_names.mpr ⟨rule, old, inside⟩)
  cases change with
  | expansion member found =>
    refine (mem_names_of_mem_expansion member found
      ((mem_of_mem_replaced new).resolve_right old) inside).imp_right ?_
    rintro rfl
    exact List.mem_cons_self
  | unit member unit other lost _ =>
    exact .inl (mem_names_of_mem_unitExpansion member
      ((mem_of_mem_replaced new).resolve_right old) inside)
  | factoring shared =>
    refine (mem_names_of_mem_replacements shared
      ((mem_of_mem_factored new).resolve_right old) inside).imp_right ?_
    rintro rfl
    exact List.mem_cons_self
  | loops =>
    rcases mem_withRulesOf.mp new with base | ⟨kept, _⟩
    · exact absurd (mem_baseRulesOf.mp base).1.1 old
    · exact absurd kept old
  | direct =>
    have new := (mem_withRulesOf.mp new).resolve_right fun kept => old kept.1
    refine (mem_names_of_mem_directRecursion new inside).imp_right ?_
    rintro rfl
    simp
  | substitution member closes indirect _ =>
    exact .inl (mem_names_of_mem_substitution member
      ((mem_of_mem_replaced new).resolve_right old) inside)
  | removal => exact absurd (List.mem_filter.mp new).1 old
  | deduplication => exact absurd (List.mem_eraseDups.mp new) old
  | @augmentation _ start _ _ started rules =>
    obtain rfl := (List.mem_cons.mp new).resolve_right old
    have headed : start ∈ g.heads := rulesOf_ne_nil.mp (by simp [rules])
    rcases List.mem_cons.mp inside with rfl | inside
    · exact .inr List.mem_cons_self
    · obtain rfl : n = start := by simpa [Rule.body] using inside
      exact .inl (mem_names_of_mem_heads headed)

/-- A name that is made up gets rules. -/
theorem mem_heads_of_minted {before : Grammar} (change : Change kind g events g')
    (minted : .minted n before ∈ events) : n ∈ g'.heads := by
  cases change with
  | expansion member found =>
    obtain ⟨rfl, _⟩ : n = _ ∧ before = g := by simpa [Event.record] using minted
    exact fresh_mem_heads_expanded member found
  | factoring shared =>
    obtain ⟨rfl, _⟩ : n = _ ∧ before = g := by simpa [Event.record] using minted
    exact fresh_mem_heads_factored shared (g.fresh_notMem_names _)
  | direct =>
    obtain ⟨rfl, _⟩ : n = _ ∧ before = g := by simpa [Event.record] using minted
    exact head_mem_heads ending_mem_withRulesOf
  | augmentation =>
    obtain ⟨rfl, _⟩ : n = _ ∧ before = g := by simpa [Event.record] using minted
    exact Grammar.mem_heads.mpr ⟨_, List.mem_cons_self, rfl⟩
  | _ => simp [Event.record] at minted

/-- A change keeps all names defined. -/
theorem defined (change : Change kind g events g') (defined : g.Defined) : g'.Defined := by
  intro n named
  by_cases removed : kind = .unreachable
  · subst removed
    cases change with
    | loops kinds | direct kinds => exact kinds.elim
    | @removal _ reached found dead =>
      obtain ⟨rule, member, inside⟩ := Grammar.mem_names.mp named
      obtain ⟨old, headed⟩ := List.mem_filter.mp member
      have headed : rule.head ∈ reached := by simpa using headed
      rcases List.mem_cons.mp inside with rfl | mentioned
      · exact head_mem_heads member
      · obtain ⟨next, there, rfl⟩ := Grammar.mem_heads.mp (defined.of_mem_body old mentioned)
        have kept := reached_of_mem_namesIn found old headed mentioned
        exact head_mem_heads (List.mem_filter.mpr ⟨there, by simpa using kept⟩)
  · rcases change.mem_names named with old | minted
    · exact change.mem_heads removed (defined n old)
    · exact change.mem_heads_of_minted minted

theorem start_eq (change : Change kind g events g') (other : kind ≠ .augmentation) :
    g'.start = g.start := by
  cases change with
  | augmentation => exact absurd rfl other
  | _ => rfl

/-- No name that the rules had gets other words, unless it cannot be reached. -/
theorem spells_iff (change : Change kind g events g') (kept : kind ≠ .unreachable)
    (defined : kind.ofLeftRecursion → g.Defined) (named : n ∈ g.names) :
    g'.Spells n w ↔ g.Spells n w := by
  have apart {fresh : Name} (unused : fresh ∉ g.names) : n ≠ fresh := fun same =>
    unused (same ▸ named)
  cases change with
  | expansion member found =>
    refine spells_expanded member found (apart ?_)
    rw [(expansionOf?_eq_some found).1]
    exact g.fresh_notMem_names _
  | unit member unit other => exact spells_unit member unit other
  | factoring shared =>
    have unused := g.fresh_notMem_names
    exact spells_factored shared (unused _) (apart (unused _))
  | loops _ _ _ nothing => exact spells_loops nothing
  | @direct _ _ head kinds =>
    have unused : g.continuation head ∉ g.names := continuation_notMem_names (defined kinds)
    exact spells_direct unused (apart unused)
  | substitution member closes indirect => exact spells_substitution member closes indirect
  | removal => exact absurd rfl kept
  | deduplication => exact spells_eraseDups
  | augmentation =>
    have unused := g.fresh_notMem_names
    exact spells_augmented (unused _) (apart (unused _))

/-- The start symbol after a change heads a rule and spells what the one before it did. -/
theorem start_spells {start : Name} (change : Change kind g events g')
    (defined : kind.ofLeftRecursion → g.Defined) (chosen : g.start = some start)
    (headed : start ∈ g.heads) :
    ∃ next, g'.start = some next ∧ next ∈ g'.heads ∧ ∀ w, g'.Spells next w ↔ g.Spells start w := by
  by_cases removed : kind = .unreachable
  · subst removed
    cases change with
    | loops kinds | direct kinds => exact kinds.elim
    | @removal _ reached found dead =>
      obtain ⟨_, first, started, reached_iff⟩ := reachable_eq_ok found
      obtain rfl : start = first := by simpa [chosen] using (requireStart_eq_ok.mp started).1
      have kept : start ∈ reached := (reached_iff _).mpr .refl
      obtain ⟨rule, member, rfl⟩ := Grammar.mem_heads.mp headed
      refine ⟨_, chosen, head_mem_heads (List.mem_filter.mpr ⟨member, by simpa using kept⟩),
        fun w => spells_retain (fun rule member headed n named => ?_) (by simpa using kept)⟩
      simpa using reached_of_mem_namesIn found member (by simpa using headed) named
  · by_cases augmented : kind = .augmentation
    · subst augmented
      cases change with
      | loops kinds | direct kinds => exact kinds.elim
      | @augmentation _ first rule others started rules =>
        obtain rfl : start = first := by simpa [chosen] using (requireStart_eq_ok.mp started).1
        exact ⟨_, rfl, Grammar.mem_heads.mpr ⟨_, List.mem_cons_self, rfl⟩, fun w =>
          spells_augmented_start (g.fresh_notMem_names _) (mem_names_of_mem_heads headed)⟩
    · exact ⟨start, (change.start_eq augmented).trans chosen, change.mem_heads removed headed,
        fun w => change.spells_iff removed defined (mem_names_of_mem_heads headed)⟩

theorem closed (change : Change kind g events g') (closed : g.Closed) : g'.Closed := by
  obtain ⟨start, chosen, headed⟩ := closed.start
  obtain ⟨next, chosen, headed, _⟩ := change.start_spells (fun _ => closed.names) chosen headed
  exact ⟨⟨next, chosen, headed⟩, change.defined closed.names⟩

theorem generates_iff (change : Change kind g events g') (closed : g.Closed) :
    g'.Generates w ↔ g.Generates w := by
  obtain ⟨start, chosen, headed⟩ := closed.start
  obtain ⟨next, chosen', _, same⟩ := change.start_spells (fun _ => closed.names) chosen headed
  simp [Generates, chosen, chosen', same]

end Change

variable {among : Transformation → Prop} {g g' : Grammar} {events : List Event}

/-- Along a path the grammar stays closed, and its language is that of the grammar at the
beginning. -/
theorem Path.closed_and_generates (path : Path among g events g') (closed : g.Closed) :
    g'.Closed ∧ ∀ w, g'.Generates w ↔ g.Generates w := by
  let Kept (h : Grammar) : Prop := h.Closed ∧ ∀ w, h.Generates w ↔ g.Generates w
  refine path.invariant (I := Kept) (fun _ change kept => ?_) ⟨closed, fun _ => Iff.rfl⟩
  exact ⟨change.closed kept.1, fun w => (change.generates_iff kept.1).trans (kept.2 w)⟩

/-- Along a path that takes out no unreachable rules, each name keeps its words. The names that are
made up where left recursion is taken out are only new if all names are defined. -/
theorem Path.spells_iff {n : Name} {w : List Terminal} (path : Path among g events g')
    (kept : ∀ kind, among kind → kind ≠ .unreachable)
    (defined : ∀ kind, among kind → kind.ofLeftRecursion → g.Defined) (named : n ∈ g.names) :
    g'.Spells n w ↔ g.Spells n w := by
  let Kept (h : Grammar) : Prop :=
    (∀ kind, among kind → kind.ofLeftRecursion → h.Defined) ∧ n ∈ h.names ∧
      (h.Spells n w ↔ g.Spells n w)
  suffices all : Kept g' from all.2.2
  refine path.invariant (I := Kept) (fun kinds change ⟨defined, named, same⟩ => ?_)
    ⟨defined, named, Iff.rfl⟩
  have spells := change.spells_iff (w := w) (kept _ kinds) (defined _ kinds) named
  exact ⟨fun kind listed direct => change.defined (defined kind listed direct),
    change.keeps_names (kept _ kinds) named, spells.trans same⟩

/-- Every pass leaves a closed grammar closed and keeps its language, with any limits and however
it ends. -/
theorem Pass.run_closed_and_generates (pass : Pass) (limits : Limits) (closed : g.Closed) :
    (pass.run limits g).grammar.Closed ∧
      ∀ w, (pass.run limits g).grammar.Generates w ↔ g.Generates w :=
  (pass.run_path limits g).closed_and_generates closed

/-- `S → S a` and `S → b`. -/
def Grammar.counting : Grammar :=
  .ofRules [⟨⟨"S", by decide⟩, .nonTerminal ⟨"S", by decide⟩, [.terminal ⟨"a", none⟩]⟩,
    ⟨⟨"S", by decide⟩, .terminal ⟨"b", none⟩, []⟩] none

theorem Pass.normalize_counting :
    counting.Closed ∧ (Pass.normalize.run (.ofCounts 5 2) counting).grammar.Closed ∧
      ∀ w, (Pass.normalize.run (.ofCounts 5 2) counting).grammar.Generates w ↔
        counting.Generates w :=
  have closed : counting.Closed := ⟨⟨⟨"S", by decide⟩, rfl, by decide⟩, by decide⟩
  ⟨closed, Pass.run_closed_and_generates .normalize _ closed⟩

/-- A transformation that takes out no unreachable rules changes the words of no name that the
grammar had, with any limits and however it ends. -/
theorem Pass.single_spells_iff {kind : Transformation} {n : Name} (kept : kind ≠ .unreachable)
    (defined : kind.ofLeftRecursion → g.Defined) (limits : Limits) (named : n ∈ g.names)
    (w : List Terminal) :
    ((Pass.single kind).run limits g).grammar.Spells n w ↔ g.Spells n w := by
  have path : Path (· = kind) g ((Pass.single kind).run limits g).events
      ((Pass.single kind).run limits g).grammar := Editing.traced_single kind
  refine path.spells_iff ?_ ?_ named
  · rintro _ rfl
    exact kept
  · rintro _ rfl
    exact defined

/-- Taking out left recursion changes the words of no name that the grammar had, with any limits and
however it ends. -/
theorem Pass.run_spells_iff (kind : Transformation) {n : Name} (kinds : kind.ofLeftRecursion)
    (limits : Limits) (defined : g.Defined) (named : n ∈ g.names) (w : List Terminal) :
    ((Pass.single kind).run limits g).grammar.Spells n w ↔ g.Spells n w := by
  refine Pass.single_spells_iff ?_ (fun _ => defined) limits named w
  rintro rfl
  exact kinds

/-- A cycle through `Y` and `Z`, closed by two equal rules with an ε in them, next to a rule of `Y`
that leads from `Y` to itself. -/
def Grammar.echoing : Grammar :=
  let y : Name := ⟨"Y", by decide⟩
  let z : Name := ⟨"Z", by decide⟩
  let token (text : String) : Symbol := .terminal ⟨text, none⟩
  .ofRules [⟨y, .nonTerminal z, [token "a"]⟩, ⟨y, .nonTerminal y, []⟩, ⟨y, token "b", []⟩,
    ⟨z, .nonTerminal y, [.epsilon, token "c"]⟩, ⟨z, .nonTerminal y, [.epsilon, token "c"]⟩,
    ⟨z, .epsilon, [token "d"]⟩] none

/-- `Z` keeps its words when the pass ends, and when it gives up in the middle of the cycle. -/
theorem Pass.leftRecursion_echoing :
    let z : Name := ⟨"Z", by decide⟩
    let ended := (Pass.single .leftRecursion).run (.ofCounts 8 8) echoing
    let failed := (Pass.single .leftRecursion).run (.ofCounts 2 8) echoing
    (echoing.Defined ∧ z ∈ echoing.names) ∧ ended.outcome = .ok () ∧
      failed.outcome = .error (.divergence (.single .leftRecursion) (.int 2) .iterations) ∧
      ∀ w, (ended.grammar.Spells z w ↔ echoing.Spells z w) ∧
        (failed.grammar.Spells z w ↔ echoing.Spells z w) := by
  have done : ((Pass.single .leftRecursion).run (.ofCounts 8 8) echoing).outcome = .ok () := by cbv
  have stopped : ((Pass.single .leftRecursion).run (.ofCounts 2 8) echoing).outcome =
      .error (.divergence (.single .leftRecursion) (.int 2) .iterations) := by cbv
  have defined : echoing.Defined := by
    unfold Grammar.Defined
    decide
  have named : (⟨"Z", by decide⟩ : Name) ∈ echoing.names := by decide
  intro z ended failed
  exact ⟨⟨defined, named⟩, done, stopped, fun w =>
    ⟨Pass.run_spells_iff .leftRecursion trivial (.ofCounts 8 8) defined named w,
      Pass.run_spells_iff .leftRecursion trivial (.ofCounts 2 8) defined named w⟩⟩

end Ebnf
