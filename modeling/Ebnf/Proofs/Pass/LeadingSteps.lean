import Mathlib
import Ebnf.Proofs.Pass.Factoring
import Ebnf.Proofs.Pass.Minting
import Ebnf.Proofs.Pass.Rejection

/-! Cleaning and factoring leave left recursion as it is. What a unit rule gives way to begins with
what its target begins with, so the steps that come in are steps that could be made one after the
other. Factoring gives the fresh name rules of its own, but no old name comes to begin otherwise,
and nothing leads to the fresh name: it stands behind a symbol that no other alternative of its head
begins with, and so it is not moved to the front when it is the turn of other groups. -/
namespace Ebnf

open Grammar

variable {kind : Transformation} {g g' before : Grammar} {group : LeadGroup}
  {events : List Event} {name fresh x y : Name}

/-! Tidying up. -/

namespace Change

theorem hasShorthand (change : Change .shorthand g events g') : g.hasShorthand = true := by
  refine Bool.eq_true_of_not_eq_false fun plain => ?_
  cases change with
  | expansion member found =>
    obtain ⟨_, before, after, body, shorthand, _⟩ := expansionOf?_eq_some found
    have bare := plain_of_mem plain member
    rw [body, Sentence.plain_append, Sentence.plain_cons, shorthand] at bare
    cases bare.2.1
  | loops recursive | direct recursive => exact recursive

theorem not_minted_of_tidies (change : Change kind g events g') (tidies : kind.Tidies) :
    .minted name before ∉ events := by
  cases change with
  | expansion | factoring | substitution | augmentation => exact tidies.elim
  | loops recursive | direct recursive => exact absurd recursive tidies.not_ofLeftRecursion
  | _ => simp [Event.record]

/-- One step in what a change leaves can be made in some steps before it. -/
theorem leads_of_tidies (change : Change kind g events g') (tidies : kind.Tidies)
    (leads : g'.Leads x y) : Relation.TransGen g.Leads x y := by
  have kept (fewer : ∀ rule ∈ g'.rules, rule ∈ g.rules) : Relation.TransGen g.Leads x y := by
    obtain ⟨rule, member, head, lead⟩ := leads
    exact .single ⟨rule, fewer rule member, head, lead⟩
  cases change with
  | expansion | factoring | substitution | augmentation => exact tidies.elim
  | loops recursive | direct recursive => exact absurd recursive tidies.not_ofLeftRecursion
  | removal => exact kept fun rule member => (List.mem_filter.mp member).1
  | deduplication => exact kept fun rule member => List.mem_eraseDups.mp member
  | @unit _ unit target member isUnit =>
    obtain ⟨rule, new, head, lead⟩ := leads
    rcases mem_of_mem_replaced new with expanded | old
    · obtain ⟨alternative, listed, rfl⟩ := List.mem_map.mp expanded
      obtain ⟨known, same⟩ := mem_rulesOf.mp listed
      have first : g.Leads x target := ⟨unit, member, head, (Rule.unit?_eq_some.mp isUnit).2⟩
      exact .head first (.single ⟨alternative, known, same, lead⟩)
    · exact .single ⟨rule, old, head, lead⟩

end Change

/-! Factoring. -/

/-- A name does not begin a body, and stands in no alternative that shares its beginning with
another one of its head. -/
structure Grammar.Tucked (g : Grammar) (name : Name) : Prop where
  behind : ∀ x, ¬ g.Leads x name
  alone : ∀ group, group ∈ g.leadGroupsOf group.head → ∀ rule ∈ group.rules,
    .nonTerminal name ∉ rule.rest

namespace Grammar

theorem tucked_of_notMem_names (absent : name ∉ g.names) : g.Tucked name where
  behind := by
    rintro _ ⟨rule, member, rfl, lead⟩
    exact absent (mem_names_of_mem_body member (lead ▸ List.mem_cons_self))
  alone := fun _ shared _ grouped inside =>
    absent (mem_names_of_mem_body (mem_rules_of_leadGroup shared grouped).1
      (List.mem_cons_of_mem _ inside))

/-- What is moved to the fresh name comes from the alternatives of a group, where the name does not
stand. -/
theorem Tucked.factored (tucked : g.Tucked name) (shared : group ∈ g.leadGroupsOf group.head)
    (unused : fresh ∉ g.names) : (g.factored group fresh).Tucked name := by
  have moved {origin : Rule} (grouped : origin ∈ group.rules) :
      .nonTerminal name ∉ (LeadGroup.suffix fresh origin).body := fun inside =>
    tucked.alone group shared origin grouped
      ((Rule.mem_body_ofBody_strip inside).resolve_left (by simp))
  constructor
  · rintro _ ⟨rule, member, rfl, lead⟩
    rcases mem_of_mem_factored member with new | old
    · rcases List.mem_cons.mp new with rfl | suffix
      · obtain ⟨origin, grouped⟩ := exists_mem_leadGroup shared
        obtain ⟨listed, _, same⟩ := mem_rules_of_leadGroup shared grouped
        exact tucked.behind _ ⟨origin, listed, rfl, same.trans lead⟩
      · obtain ⟨origin, grouped, rfl⟩ := List.mem_map.mp (List.mem_eraseDups.mp suffix)
        exact moved grouped (lead ▸ List.mem_cons_self)
    · exact tucked.behind _ ⟨rule, old, rfl, lead⟩
  · intro other later rule member inside
    rcases leadGroup_of_factored shared unused later with suffixes | ⟨old, _⟩
    · obtain ⟨origin, grouped, rfl⟩ := suffixes rule member
      exact moved grouped (List.mem_cons_of_mem _ inside)
    · exact tucked.alone other old rule member inside

end Grammar

theorem Change.eq_factored (change : Change .sharedLeads g events g') :
    ∃ group, group ∈ g.leadGroupsOf group.head ∧ g' = g.factored group (g.fresh group.head) := by
  cases change with
  | factoring shared => exact ⟨_, shared, rfl⟩
  | loops recursive | direct recursive => exact recursive.elim

namespace Path

/-! Along a run. -/

theorem not_minted_of_tidies (path : Path Transformation.Tidies g events g') :
    .minted name before ∉ events := fun told => by
  obtain ⟨_, _, _, _, tidies, _, change, here⟩ := path.exists_minting told
  exact change.not_minted_of_tidies tidies here

theorem transGen_of_tidies (path : Path Transformation.Tidies g events g')
    (steps : Relation.TransGen g'.Leads x y) : Relation.TransGen g.Leads x y := by
  induction path with
  | refl => exact steps
  | remark _ _ ih => exact ih steps
  | next tidies change _ ih =>
    exact Relation.TransGen.closed (fun _ _ leads => change.leads_of_tidies tidies leads) _ _
      (ih steps)

section Factoring

variable (path : Path (· = .sharedLeads) g events g')

include path

theorem names_of_factoring (named : name ∈ g.names) : name ∈ g'.names := by
  refine path.invariant (I := fun g => name ∈ g.names) ?_ named
  rintro _ _ _ _ rfl change named
  exact change.keeps_names (by decide) named

theorem transGen_of_factoring (named : x ∈ g.names) (steps : Relation.TransGen g'.Leads x y) :
    Relation.TransGen g.Leads x y := by
  induction path with
  | refl => exact steps
  | remark _ _ ih => exact ih named steps
  | next kinds change _ ih =>
    subst kinds
    have steps := ih (change.keeps_names (by decide) named) steps
    obtain ⟨group, shared, rfl⟩ := change.eq_factored
    exact (beginsWithin_factored shared (fresh_notMem_names _ _)).transGen steps named

theorem acyclic_of_factoring (acyclic : g.Acyclic) : g'.Acyclic := by
  refine path.invariant ?_ acyclic
  rintro _ g _ _ rfl change acyclic x around
  obtain ⟨group, shared, rfl⟩ := change.eq_factored
  exact acyclic x ((beginsWithin_factored shared (fresh_notMem_names _ _)).around around).2

theorem tucked_of_factoring (tucked : g.Tucked name) : g'.Tucked name := by
  refine path.invariant (I := fun g => g.Tucked name) ?_ tucked
  rintro _ g _ _ rfl change tucked
  obtain ⟨group, shared, rfl⟩ := change.eq_factored
  exact tucked.factored shared (g.fresh_notMem_names _)

/-- A name that is made up on the way was not there at the start. -/
theorem notMem_names_of_minted (told : .minted name before ∈ events) : name ∉ g.names := by
  obtain ⟨_, _, _, _, rfl, earlier, change, here⟩ := path.exists_minting told
  have new := (change.minted here).2.resolve_right And.left
  exact fun old => new (earlier.names_of_factoring old)

/-- Nothing ever leads to a name that is made up, in the end or at any moment when a name is made
up. -/
theorem not_leads_minted (told : .minted name before ∈ events) : (∀ x, ¬ g'.Leads x name) ∧
    ∀ other earlier, .minted other earlier ∈ events → ∀ x, ¬ earlier.Leads x name := by
  have tucked := tucked_of_notMem_names (path.notMem_names_of_minted told)
  refine ⟨(path.tucked_of_factoring tucked).behind, fun other earlier also => ?_⟩
  obtain ⟨_, _, _, _, _, start, _⟩ := path.exists_minting also
  exact (start.tucked_of_factoring tucked).behind

end Factoring

/-- Where there is no shorthand, none is taken out. -/
theorem tidies_of_plain (plain : g.hasShorthand = false)
    (path : Path (fun kind => kind = .shorthand ∨ kind.Tidies) g events g') :
    Path Transformation.Tidies g events g' := by
  induction path with
  | refl => exact .refl _
  | remark r _ ih => exact .remark r (ih plain)
  | next kinds change _ ih =>
    rcases kinds with rfl | tidies
    · cases plain.symm.trans change.hasShorthand
    · exact .next tidies change (ih (change.plain (by rintro rfl; exact tidies) plain))

end Path

namespace Pass

/-- The passes that clean up a grammar or factor out what alternatives share. -/
def CleansOrFactors : Pass → Prop
  | .single .units | .single .duplicates | .single .unreachable | .single .sharedLeads => True
  | .clean => True
  | _ => False

theorem run_path_of_cleansOrFactors {pass : Pass} (cleans : pass.CleansOrFactors)
    (plain : g.hasShorthand = false) (limits : Limits) :
    let r := pass.run limits g
    Path Transformation.Tidies g r.events r.grammar ∨
      Path (· = .sharedLeads) g r.events r.grammar := by
  cases pass with
  | single t =>
    cases t with
    | units | duplicates | unreachable =>
      exact .inl ((Editing.traced_single _).among_of_eq trivial)
    | sharedLeads => exact .inr (Editing.traced_single _)
    | _ => exact cleans.elim
  | clean => exact .inl (Editing.traced_clean_stages.tidies_of_plain plain)
  | _ => exact cleans.elim

/-- Cleaning up and factoring do not add left recursion to a grammar without shorthand, whether they
succeed or fail. What an old name leads to among the old names, by one or more leading steps, it led
to before; nothing ever leads to a name that is made up on the way; and no head comes to lead back
to itself where none did. -/
theorem run_keeps_leads (pass : Pass) (cleans : pass.CleansOrFactors)
    (plain : g.hasShorthand = false) (limits : Limits) :
    let r := pass.run limits g
    (∀ x ∈ g.names, ∀ y ∈ g.names,
      Relation.TransGen r.grammar.Leads x y → Relation.TransGen g.Leads x y) ∧
    (∀ name before, .minted name before ∈ r.events → (∀ x, ¬ r.grammar.Leads x name) ∧
      ∀ other earlier, .minted other earlier ∈ r.events → ∀ x, ¬ earlier.Leads x name) ∧
    (g.Acyclic → r.grammar.Acyclic) := by
  intro r
  rcases run_path_of_cleansOrFactors cleans plain limits with tidied | factored
  · refine ⟨fun _ _ _ _ => tidied.transGen_of_tidies, fun name before told => ?_, ?_⟩
    · exact absurd told tidied.not_minted_of_tidies
    · exact fun acyclic x around => acyclic x (tidied.transGen_of_tidies around)
  · exact ⟨fun _ named _ _ => factored.transGen_of_factoring named,
      fun _ _ => factored.not_leads_minted, factored.acyclic_of_factoring⟩

end Pass

/-- `flower → stalk seed x`, `flower → stalk seed y`, `seed → flower` and `stalk → ε`. -/
def Grammar.garden : Grammar :=
  let flower : Name := ⟨"flower", by decide⟩
  let seed : Name := ⟨"seed", by decide⟩
  let stalk : Name := ⟨"stalk", by decide⟩
  let ending (token : String) : List Symbol := [.nonTerminal seed, .terminal ⟨token, none⟩]
  .ofRules [⟨flower, .nonTerminal stalk, ending "x"⟩, ⟨flower, .nonTerminal stalk, ending "y"⟩,
    ⟨seed, .nonTerminal flower, []⟩, ⟨stalk, .epsilon, []⟩] none

/-- What is behind `stalk` goes to `flower′`, and what is behind `seed` there to `flower′′`. So
`flower′` leads to `seed` and on to `flower`, but not back to itself. -/
theorem Pass.sharedLeads_garden :
    let r := (Pass.single .sharedLeads).run (.ofCounts 3 1) garden
    let continued : Name := ⟨"flower′", by decide⟩
    (Pass.single .sharedLeads).CleansOrFactors ∧ garden.hasShorthand = false ∧
      r.outcome = .ok () ∧ .minted continued garden ∈ r.events ∧
      r.grammar.Leads continued ⟨"seed", by decide⟩ ∧ (∀ x, ¬ r.grammar.Leads x continued) ∧
      garden.Acyclic ∧ r.grammar.Acyclic := by
  intro r continued
  have plain : garden.hasShorthand = false := by decide
  have acyclic : garden.Acyclic := leftRecursivePaths_eq_nil_iff.mp (by cbv)
  have ended : r.outcome = .ok () := by cbv
  have first : r.events.head? = some (.minted continued garden) := by cbv
  have told : .minted continued garden ∈ r.events := List.mem_of_mem_head? first
  have last : r.grammar.rules[1]? = some ⟨continued, .nonTerminal ⟨"seed", by decide⟩,
      [.nonTerminal ⟨"flower′′", by decide⟩]⟩ := by cbv
  obtain ⟨_, behind, kept⟩ :=
    Pass.run_keeps_leads (.single .sharedLeads) trivial plain (.ofCounts 3 1)
  exact ⟨trivial, plain, ended, told, ⟨_, List.mem_of_getElem? last, rfl, rfl⟩,
    (behind _ _ told).1, acyclic, kept acyclic⟩

end Ebnf
