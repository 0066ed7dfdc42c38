import Mathlib.Data.Finset.Dedup
import Mathlib.Data.Finset.Filter
import Mathlib.Data.Prod.Lex
import Ebnf.Proofs.Language.Preservation
import Ebnf.Proofs.Pass.Resolution
import Ebnf.Proofs.Pass.Unwinding

/-! Why the resolution of cycles comes to an end where ε does not stand in the rules. Every cycle
stays among the heads of the beginning, whose rules stay free of ε and whose order does not change.
A round makes no head active. Unless it leaves fewer active heads, it makes fewer rules close a
cycle at the first of them, or else it makes no more and clears a head of direct left recursion. -/
namespace Ebnf

open Grammar

variable {g g' : Grammar} {heads : List Name} {root x : Name} {rule : Rule}

/-- What the rounds keep: with `heads` as the heads of the beginning, all cycles go through them,
there is no ε in their rules, and they keep their order. -/
structure Founded (heads : List Name) (g : Grammar) : Prop where
  plain : g.hasShorthand = false
  defined : g.Defined
  order : heads.Sublist g.heads
  around : ∀ x, Relation.TransGen g.Leads x x → x ∈ heads
  visible : ∀ rule ∈ g.rules, rule.head ∈ heads → .epsilon ∉ rule.body

namespace Founded

theorem initial (plain : g.hasShorthand = false) (defined : g.Defined)
    (visible : ∀ rule ∈ g.rules, .epsilon ∉ rule.body) : Founded g.heads g where
  plain := plain
  defined := defined
  order := List.Sublist.refl _
  around := by
    intro x around
    obtain ⟨_, leads, _⟩ := Relation.TransGen.head'_iff.mp around
    exact leads.mem_heads
  visible := fun rule member _ => visible rule member

variable (founded : Founded heads g)

include founded

theorem mem_names (member : x ∈ heads) : x ∈ g.names :=
  mem_names_of_mem_heads (founded.order.subset member)

theorem visible_of_around (around : Relation.TransGen g.Leads x x) :
    ∀ rule ∈ g.rulesOf x, .epsilon ∉ rule.body := by
  intro rule listed
  obtain ⟨member, rfl⟩ := mem_rulesOf.mp listed
  exact founded.visible rule member (founded.around _ around)

/-- A round unwinds a head or shortens a cycle. -/
theorem unwinding_or_shortening (resolution : Resolution g g') :
    (∃ head, ∃ u : Unwinding g head, g.baseRulesOf head ≠ [] ∧ g.leftRecursiveRulesOf head ≠ [] ∧
        u.result = g') ∨
      ∃ root rule, Shortening g root rule ∧ g.replaced rule (g.substitution root rule) = g' := by
  cases resolution with
  | @loops head based recursive nothing =>
    have shown := founded.visible_of_around (around_of_recursive recursive)
    exact .inl ⟨head, .loops shown, based, recursive, Unwinding.result_loops shown⟩
  | @direct head based recursive =>
    obtain ⟨rule, listed⟩ := List.exists_mem_of_ne_nil _ recursive
    have recursive : g.leftRecursiveRulesOf head ≠ [] :=
      List.ne_nil_of_mem (List.mem_filter.mp listed).1
    have shown := founded.visible_of_around (around_of_recursive recursive)
    exact .inl ⟨head, .direct shown founded.defined, based, recursive,
      Unwinding.result_direct shown founded.defined⟩
  | substitution shortening => exact .inr ⟨_, _, shortening, rfl⟩

theorem resolve (resolution : Resolution g g') : Founded heads g' := by
  obtain ⟨events, change⟩ := resolution.change
  have plain : g'.hasShorthand = false := change.plain (by decide) founded.plain
  have defined : g'.Defined := change.defined founded.defined
  rcases founded.unwinding_or_shortening resolution with
    ⟨head, u, based, _, rfl⟩ | ⟨root, rule, shortening, rfl⟩
  · -- The new names head no cycle, so their rules may hold ε.
    refine ⟨plain, defined, founded.order.trans (u.heads_sublist based), ?_, ?_⟩
    · intro x around
      exact founded.around x (u.within.around around).2
    · intro r member headed
      rcases u.mem_rules_result.mp member with ⟨base, listed, rfl⟩ | added | ⟨old, _⟩
      · exact u.visible_continued base listed
      · exact absurd (founded.mem_names headed) (u.head_added r added)
      · exact founded.visible r old headed
  · -- Both the root and the rule are on a cycle, so nothing is stripped from what is put together.
    have visible := founded.visible_of_around shortening.around_root
    have some : g.substitution root rule ≠ [] := by
      obtain ⟨alternative, listed⟩ :=
        List.exists_mem_of_ne_nil _ shortening.defined
      exact List.ne_nil_of_mem (List.mem_eraseDups.mpr (List.mem_map_of_mem listed))
    have order := heads_replaced shortening.member some fun r new =>
      (exists_alternative visible new).1
    refine ⟨plain, defined, order ▸ founded.order, ?_, ?_⟩
    · intro x around
      exact founded.around x (shortening.around_of_replaced visible around)
    · intro r member headed
      rcases mem_of_mem_replaced member with new | old
      · obtain ⟨alternative, listed, rfl⟩ := List.mem_map.mp (List.mem_eraseDups.mp new)
        have front := visible alternative listed
        have back := founded.visible rule shortening.member
          (founded.around _ shortening.around_head)
        have joined : .epsilon ∉ alternative.body ++ rule.rest := by
          rw [List.mem_append, not_or]
          exact ⟨front, fun inside => back (List.mem_cons_of_mem _ inside)⟩
        have full : alternative.body ++ rule.rest ≠ [] := by simp [Rule.body]
        rwa [Sentence.strip_eq_self joined full, Rule.body_ofBody full]
      · exact founded.visible r old headed

end Founded

namespace Grammar

open Classical in
/-- Those of some heads that are active. -/
noncomputable def activeNames (g : Grammar) (heads : List Name) : Finset Name :=
  {name ∈ heads.toFinset | g.Active name}

/-- Those of some heads that begin their own rules and have another alternative. -/
def directNames (g : Grammar) (heads : List Name) : Finset Name :=
  {name ∈ heads.toFinset | g.baseRulesOf name ≠ [] ∧ g.leftRecursiveRulesOf name ≠ []}

/-- How many rules of some heads other than `root` begin with `root`. -/
def closers (g : Grammar) (heads : List Name) (root : Name) : Nat :=
  g.rules.countP fun r => r.head ∈ heads ∧ r.head ≠ root ∧ r.lead = .nonTerminal root

/-- What is left to do: the active heads, the rules that close a cycle at the first of them, and the
heads with direct left recursion. -/
noncomputable def effort (g : Grammar) (heads : List Name) : Finset Name ×ₗ Nat ×ₗ Finset Name :=
  let active := g.activeNames heads
  toLex (active, toLex ((heads.find? (· ∈ active)).elim 0 (g.closers heads), g.directNames heads))

theorem mem_activeNames : x ∈ g.activeNames heads ↔ x ∈ heads ∧ g.Active x := by
  simp [activeNames]

theorem mem_directNames : x ∈ g.directNames heads ↔
    x ∈ heads ∧ g.baseRulesOf x ≠ [] ∧ g.leftRecursiveRulesOf x ≠ [] := by
  simp [directNames]

end Grammar

namespace Unwinding

variable {head : Name} (u : Unwinding g head) (founded : Founded heads g)

theorem activeNames_subset : u.result.activeNames heads ⊆ g.activeNames heads := by
  intro x member
  obtain ⟨inside, active⟩ := mem_activeNames.mp member
  exact mem_activeNames.mpr ⟨inside, u.within.active active⟩

include founded

theorem closers_le (root : Name) : u.result.closers heads root ≤ g.closers heads root := by
  apply u.countP_result_le
  · intro r chosen
    have chosen : r.head ∈ heads ∧ r.head ≠ root ∧ r.lead = .nonTerminal root := by
      simpa using chosen
    exact founded.mem_names chosen.1
  · intro r s head lead
    simp only [head, lead]

/-- The head that is unwound does not begin its own rules any more. -/
theorem directNames_ssubset (based : g.baseRulesOf head ≠ [])
    (recursive : g.leftRecursiveRulesOf head ≠ []) :
    u.result.directNames heads ⊂ g.directNames heads := by
  apply Finset.ssubset_iff_subset_ne.mpr
  constructor
  · intro x member
    obtain ⟨inside, based, recursive⟩ := mem_directNames.mp member
    have named := founded.mem_names inside
    exact mem_directNames.mpr
      ⟨inside, u.within.based based named, (u.recursive_of_result recursive named).1⟩
  · intro same
    have headed : head ∈ heads := founded.around head (around_of_recursive recursive)
    have member : head ∈ u.result.directNames heads :=
      same ▸ mem_directNames.mpr ⟨headed, based, recursive⟩
    obtain ⟨_, _, again⟩ := mem_directNames.mp member
    exact (u.recursive_of_result again (founded.mem_names headed)).2 rfl

theorem effort_lt (based : g.baseRulesOf head ≠ [])
    (recursive : g.leftRecursiveRulesOf head ≠ []) : u.result.effort heads < g.effort heads := by
  apply Prod.Lex.toLex_lt_toLex'.mpr
  refine ⟨u.activeNames_subset, fun same => ?_⟩
  apply Prod.Lex.toLex_lt_toLex'.mpr
  refine ⟨?_, fun _ => u.directNames_ssubset founded based recursive⟩
  dsimp only at same ⊢
  rw [same]
  cases heads.find? (· ∈ g.activeNames heads) with
  | none => exact Nat.le_refl 0
  | some root => exact u.closers_le founded root

end Unwinding

namespace Shortening

variable (shortening : Shortening g root rule) (founded : Founded heads g)

include shortening founded

/-- The root is the first of the heads that are active. -/
theorem find?_active :
    heads.find? (· ∈ g.activeNames heads) = some root := by
  have active : g.Active root := ⟨shortening.based, shortening.around_root⟩
  have headed : root ∈ heads := founded.around root shortening.around_root
  obtain ⟨before, after, split, idle⟩ := shortening.first
  have apart : (before ++ root :: after).Nodup := split ▸ nodup_heads
  obtain ⟨_, later, disjoint⟩ := List.nodup_append.mp apart
  obtain ⟨front, back, rfl, earlier, rest⟩ := List.sublist_append_iff.mp (split ▸ founded.order)
  have begins : ∃ others, back = root :: others := by
    rcases List.mem_append.mp headed with inside | inside
    · exact absurd rfl (disjoint root (earlier.subset inside) root List.mem_cons_self)
    · rcases List.sublist_cons_iff.mp rest with skipped | ⟨others, same, _⟩
      · exact absurd (skipped.subset inside) (List.nodup_cons.mp later).1
      · exact ⟨others, same⟩
  obtain ⟨others, rfl⟩ := begins
  apply List.find?_eq_some_iff_append.mpr
  refine ⟨by simpa [mem_activeNames] using active, front, others, rfl, ?_⟩
  intro name member
  simpa [mem_activeNames] using fun _ => idle name (earlier.subset member)

theorem activeNames_subset : (g.replaced rule (g.substitution root rule)).activeNames heads ⊆
    g.activeNames heads := by
  have visible := founded.visible_of_around shortening.around_root
  intro x member
  obtain ⟨inside, based, around⟩ := mem_activeNames.mp member
  exact mem_activeNames.mpr ⟨inside, shortening.based_of_replaced visible based,
    shortening.around_of_replaced visible around⟩

/-- Substitution leaves a rule less that begins with the root. -/
theorem closers_lt : (g.replaced rule (g.substitution root rule)).closers heads root <
    g.closers heads root := by
  have visible := founded.visible_of_around shortening.around_root
  apply countP_replaceFirst_lt shortening.member
  · simpa [shortening.closes, shortening.indirect] using
      founded.around _ shortening.around_head
  · intro r new
    simp [shortening.lead_ne_root visible new]

theorem effort_lt :
    (g.replaced rule (g.substitution root rule)).effort heads < g.effort heads := by
  apply Prod.Lex.toLex_lt_toLex'.mpr
  refine ⟨shortening.activeNames_subset founded, fun same => ?_⟩
  apply Prod.Lex.toLex_lt_toLex.mpr
  left
  dsimp only at same ⊢
  rw [same, shortening.find?_active founded]
  exact shortening.closers_lt founded

end Shortening

theorem Resolution.effort_lt (resolution : Resolution g g') (founded : Founded heads g) :
    g'.effort heads < g.effort heads := by
  rcases founded.unwinding_or_shortening resolution with
    ⟨head, u, based, recursive, rfl⟩ | ⟨root, rule, shortening, rfl⟩
  · exact u.effort_lt founded based recursive
  · exact shortening.effort_lt founded

end Ebnf
