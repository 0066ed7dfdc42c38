import Mathlib
import Ebnf.Proofs.Language.Preservation

/-! Names that are made up. The name for a new non-terminal is looked for in the grammar as it is,
with one exception: while a head is freed of direct left recursion its rules are out, so a name that
they alone mention can be taken for new. Such a name heads no rule, and the rules that it gets
change what those that mention it derive. -/
namespace Ebnf

open Grammar

/-- A name clashes with a grammar if it would continue a head whose own rules mention it. -/
def Grammar.Clashes (g : Grammar) (name : Name) : Prop :=
  ∃ head, g.baseRulesOf head ≠ [] ∧ (g.directRecursion head).recursive ≠ [] ∧
    name = g.continuation head ∧ ∃ rule ∈ g.rulesOf head, name ∈ Symbol.namesIn rule.body

theorem Grammar.Clashes.mem_names {g : Grammar} {name : Name} (clash : g.Clashes name) :
    name ∈ g.names := by
  obtain ⟨_, _, _, _, rule, listed, inside⟩ := clash
  exact Grammar.mem_names.mpr ⟨rule, (mem_rulesOf.mp listed).1, List.mem_cons_of_mem _ inside⟩

variable {among : Transformation → Prop} {kind : Transformation} {g g' before : Grammar}
  {events : List Event} {name : Name}

namespace Change

/-- What is made up is new, or continues a head. -/
theorem minted (change : Change kind g events g') (told : .minted name before ∈ events) :
    before = g ∧ (name ∉ g.names ∨ kind.ofLeftRecursion ∧ ∃ head, g.baseRulesOf head ≠ [] ∧
      (g.directRecursion head).recursive ≠ [] ∧ name = g.continuation head) := by
  cases change with
  | expansion member found =>
    obtain ⟨rfl, rfl⟩ : name = _ ∧ before = g := by simpa [Event.record] using told
    rw [(expansionOf?_eq_some found).1]
    exact ⟨rfl, .inl (before.fresh_notMem_names _)⟩
  | factoring =>
    obtain ⟨rfl, rfl⟩ : name = _ ∧ before = g := by simpa [Event.record] using told
    exact ⟨rfl, .inl (before.fresh_notMem_names _)⟩
  | @direct _ _ head kinds based recursive =>
    obtain ⟨rfl, rfl⟩ : name = _ ∧ before = g := by simpa [Event.record] using told
    exact ⟨rfl, .inr ⟨kinds, head, based, recursive, rfl⟩⟩
  | augmentation =>
    obtain ⟨rfl, rfl⟩ : name = _ ∧ before = g := by simpa [Event.record] using told
    exact ⟨rfl, .inl (before.fresh_notMem_names _)⟩
  | _ => simp [Event.record] at told

/-- A name that is made up heads no rule. -/
theorem notMem_heads_of_minted (change : Change kind g events g')
    (told : .minted name before ∈ events) : name ∉ g.heads := by
  rcases (change.minted told).2 with new | ⟨_, head, _, _, rfl⟩
  · exact fun headed => new (mem_names_of_mem_heads headed)
  · exact continuation_notMem_heads

/-- If it is not new, the rules of the head that it continues mention it. -/
theorem clashes_of_minted (change : Change kind g events g')
    (told : .minted name before ∈ events) (named : name ∈ g.names) :
    kind.ofLeftRecursion ∧ g.Clashes name := by
  rcases (change.minted told).2 with new | ⟨kinds, head, based, recursive, rfl⟩
  · exact absurd named new
  · obtain ⟨rule, member, inside⟩ := Grammar.mem_names.mp named
    have same := head_eq_of_mem_names_continuation member inside
    refine ⟨kinds, head, based, recursive, rfl, rule, mem_rulesOf.mpr ⟨member, same⟩, ?_⟩
    refine (List.mem_cons.mp inside).resolve_left fun equal => ?_
    exact (g.retain (· ≠ head)).fresh_ne head (equal.trans same)

end Change

namespace Path

/-- A name that is made up on the way is made up by one of the changes. -/
theorem exists_minting (path : Path among g events g') (told : .minted name before ∈ events) :
    ∃ kind earlier first after, among kind ∧ Path among g earlier before ∧
      Change kind before first after ∧ .minted name before ∈ first := by
  induction path with
  | refl => cases told
  | remark r _ ih =>
    obtain ⟨kind, earlier, first, after, kinds, path, change⟩ := ih (by simpa using told)
    exact ⟨kind, _, first, after, kinds, .remark r path, change⟩
  | @next kind g first middle rest g' kinds change _ ih =>
    rcases List.mem_append.mp told with here | later
    · obtain rfl := (change.minted here).1
      exact ⟨kind, [], first, middle, kinds, .refl _, change, here⟩
    · obtain ⟨kind', earlier, first', after, kinds', path, change'⟩ := ih later
      exact ⟨kind', _, first', after, kinds', .next kinds change path, change'⟩

/-- A name that comes in on the way is made up on the way. -/
theorem mem_names (path : Path among g events g') (named : name ∈ g'.names) :
    name ∈ g.names ∨ ∃ before, .minted name before ∈ events := by
  induction path with
  | refl => exact .inl named
  | remark _ _ ih =>
    exact (ih named).imp_right fun ⟨before, told⟩ => ⟨before, List.mem_cons_of_mem _ told⟩
  | @next _ g _ _ _ _ _ change _ ih =>
    rcases ih named with old | ⟨before, told⟩
    · exact (change.mem_names old).imp_right fun told => ⟨g, List.mem_append_left _ told⟩
    · exact .inr ⟨before, List.mem_append_right _ told⟩

/-- Names that are made up are new where all names are defined. -/
theorem clashes_of_minted (path : Path among g events g') (told : .minted name before ∈ events)
    (named : name ∈ before.names) :
    (∃ kind, among kind ∧ kind.ofLeftRecursion) ∧ before.Clashes name ∧ ¬ g.Defined := by
  obtain ⟨kind, _, first, after, kinds, earlier, change, told⟩ := path.exists_minting told
  obtain ⟨recursive, clash⟩ := change.clashes_of_minted told named
  refine ⟨⟨kind, kinds, recursive⟩, clash, fun defined => ?_⟩
  have kept := earlier.invariant (fun _ change kept => change.defined kept) defined
  exact change.notMem_heads_of_minted told (kept name named)

end Path

namespace Pass

/-- Whether a pass takes out left recursion. -/
def RemovesLeftRecursion : Pass → Prop
  | .single t => t.ofLeftRecursion
  | .clean | .cleanUntilQuiet | .prepareLR1 => False
  | .fix | .fixUntilQuiet | .normalize => True

theorem run_path_of_not_removes {pass : Pass} (other : ¬ pass.RemovesLeftRecursion)
    (limits : Limits) (g : Grammar) : Path (fun kind => ¬ kind.ofLeftRecursion) g
      (pass.run limits g).events (pass.run limits g).grammar := by
  cases pass with
  | single t => exact (Editing.traced_single t).among_of_eq other
  | clean => exact Editing.traced_clean
  | cleanUntilQuiet => exact Editing.traced_untilQuiet fun _ => Editing.traced_clean
  | prepareLR1 => exact Editing.traced_prepareLR1
  | fix | fixUntilQuiet | normalize => exact absurd trivial other

/-- Every name that a pass brings into a grammar is made up on the way, whether the pass succeeds or
fails. At that moment it heads no rule, and it is new to the grammar but in one case: it would
continue a head whose own rules mention it already, which takes a pass that removes left recursion
and a grammar with a name that heads no rule. -/
theorem run_minted (pass : Pass) (limits : Limits) (g : Grammar) :
    let r := pass.run limits g
    (∀ name ∈ r.grammar.names, name ∈ g.names ∨ ∃ before, .minted name before ∈ r.events) ∧
      ∀ name before, .minted name before ∈ r.events → name ∉ before.heads ∧
        (name ∈ before.names ↔ pass.RemovesLeftRecursion ∧ before.Clashes name ∧ ¬ g.Defined) := by
  intro r
  have path := pass.run_path limits g
  refine ⟨fun name named => path.mem_names named, fun name before told => ⟨?_, ?_⟩⟩
  · obtain ⟨_, _, _, _, _, _, change, here⟩ := path.exists_minting told
    exact change.notMem_heads_of_minted here
  · constructor
    · intro named
      refine ⟨?_, (path.clashes_of_minted told named).2⟩
      by_contra other
      obtain ⟨⟨_, kinds, recursive⟩, _⟩ :=
        (run_path_of_not_removes other limits g).clashes_of_minted told named
      exact kinds recursive
    · exact fun ⟨_, clash, _⟩ => clash.mem_names

end Pass

/-- `P → P x` and `P → P′`, where nothing else is said of `P′`. -/
def Grammar.primed : Grammar :=
  .ofRules [⟨⟨"P", by decide⟩, .nonTerminal ⟨"P", by decide⟩, [.terminal ⟨"x", none⟩]⟩,
    ⟨⟨"P", by decide⟩, .nonTerminal ⟨"P′", by decide⟩, []⟩] none

theorem Grammar.mem_names_primed : ⟨"P′", by decide⟩ ∈ primed.names := by
  decide

theorem Pass.minted_primed : .minted ⟨"P′", by decide⟩ primed ∈
    ((Pass.single .leftRecursionRound).run (.ofCounts 1 1) primed).events := by
  have first : ((Pass.single .leftRecursionRound).run (.ofCounts 1 1) primed).events.head? =
      some (.minted ⟨"P′", by decide⟩ primed) := by cbv
  exact List.mem_of_mem_head? first

theorem Pass.leftRecursionRound_clashes :
    .minted ⟨"P′", by decide⟩ primed ∈
        ((Pass.single .leftRecursionRound).run (.ofCounts 1 1) primed).events ∧
      ⟨"P′", by decide⟩ ∈ primed.names ∧ ⟨"P′", by decide⟩ ∉ primed.heads ∧
        primed.Clashes ⟨"P′", by decide⟩ ∧ ¬ primed.Defined := by
  obtain ⟨unheaded, clash⟩ := (Pass.run_minted _ _ _).2 _ _ minted_primed
  obtain ⟨_, clashes, undefined⟩ := clash.mp mem_names_primed
  exact ⟨minted_primed, mem_names_primed, unheaded, clashes, undefined⟩

/-- A round succeeds on `primed` and makes up the name `P′`, which is there already: in the result
`P′` is what `P` goes on with and still what it begins with. -/
theorem Pass.leftRecursionRound_primed :
    let r := (Pass.single .leftRecursionRound).run (.ofCounts 1 1) primed
    r.outcome = .ok () ∧ .minted ⟨"P′", by decide⟩ primed ∈ r.events ∧
      ⟨"P′", by decide⟩ ∈ primed.names ∧
      r.grammar.rules = [⟨⟨"P", by decide⟩, .nonTerminal ⟨"P′", by decide⟩,
          [.nonTerminal ⟨"P′", by decide⟩]⟩,
        ⟨⟨"P′", by decide⟩, .terminal ⟨"x", none⟩, [.nonTerminal ⟨"P′", by decide⟩]⟩,
        ⟨⟨"P′", by decide⟩, .epsilon, []⟩] :=
  ⟨by cbv, minted_primed, mem_names_primed, by cbv⟩

end Ebnf
