import Ebnf.Proofs.Language.Closure
import Ebnf.Proofs.Pass.Units

/-! What removal leaves. Repeated rules go without any other rule missing them, and unreachable
ones are the rules of names that no other rule mentions. So what other passes have achieved for a
grammar holds for the rules that stay. -/
namespace Ebnf

namespace Grammar

variable {g g' : Grammar} {rule : Rule} {target start : Name} {reached : List Name}

/-- `g.Pruned g'` says that `g'` has some of the rules of `g`, along with all rules of the names
that these mention, and that all its heads can be reached. -/
structure Pruned (g g' : Grammar) : Prop where
  sublist : g'.rules.Sublist g.rules
  closed : ∀ rule ∈ g'.rules, ∀ other ∈ g.rules,
    other.head ∈ Symbol.namesIn rule.body → other ∈ g'.rules
  reached : g'.rules = [] ∨
    ∃ start, g'.requireStart = .ok start ∧ ∀ head ∈ g'.heads, g'.Reaches start head

theorem plain_of_subset (fewer : ∀ rule ∈ g'.rules, rule ∈ g.rules)
    (plain : g.hasShorthand = false) : g'.hasShorthand = false :=
  List.any_eq_false.mpr fun rule member =>
    Bool.eq_false_iff.mp (plain_of_mem plain (fewer rule member))

/-- A settled unit stays settled if only other rules go. -/
theorem Settled.of_subset (settled : g.Settled rule target) (unit : rule.unit? = some target)
    (fewer : ∀ r ∈ g'.rules, r ∈ g.rules)
    (kept : selfLoop target ∈ g.rules → selfLoop target ∈ g'.rules) : g'.Settled rule target := by
  rw [settled_iff_of_unit unit] at settled ⊢
  refine settled.imp_right (Or.imp kept fun undefined headed => undefined ?_)
  obtain ⟨r, member, rfl⟩ := mem_heads.mp headed
  exact head_mem_heads (fewer r member)

theorem Pruned.settled (pruned : g.Pruned g') (member : rule ∈ g'.rules)
    (unit : rule.unit? = some target) (settled : g.Settled rule target) :
    g'.Settled rule target := by
  refine settled.of_subset unit (fun r => pruned.sublist.mem) fun loop => ?_
  refine pruned.closed rule member _ loop ?_
  obtain ⟨rest, lead⟩ := Rule.unit?_eq_some.mp unit
  simp [Rule.body, rest, lead, selfLoop, Symbol.namesIn, Symbol.names]

theorem settled_eraseDups (unit : rule.unit? = some target) (settled : g.Settled rule target) :
    ({ g with rules := g.rules.eraseDups } : Grammar).Settled rule target :=
  settled.of_subset unit (fun _ => List.mem_eraseDups.mp) List.mem_eraseDups.mpr

/-- The rules of the names that can be reached. -/
theorem pruned_retain (found : g.reachable = .ok reached) (some : g.rules ≠ []) :
    g.Pruned (g.retain (· ∈ reached)) := by
  obtain ⟨_, start, started, reached_iff⟩ := reachable_eq_ok found
  have stays {r : Rule} (member : r ∈ g.rules) (headed : r.head ∈ reached) :
      r ∈ (g.retain (· ∈ reached)).rules :=
    List.mem_filter.mpr ⟨member, decide_eq_true headed⟩
  have old {r : Rule} (member : r ∈ (g.retain (· ∈ reached)).rules) :
      r ∈ g.rules ∧ r.head ∈ reached :=
    ⟨(List.mem_filter.mp member).1, of_decide_eq_true (List.mem_filter.mp member).2⟩
  have path {n : Name} (walk : Relation.ReflTransGen (fun a b => b ∈ g.mentions a) start n) :
      (g.retain (· ∈ reached)).Reaches start n := by
    rw [reaches_iff]
    induction walk with
    | refl => exact .refl
    | @tail a b before mentioned ih =>
      obtain ⟨r, member, rfl, occurs⟩ := mem_mentions.mp mentioned
      exact ih.tail
        (mem_mentions.mpr ⟨r, stays member ((reached_iff _).mpr before), rfl, occurs⟩)
  refine ⟨List.filter_sublist, fun r member other there named => ?_, .inr ⟨start, ?_, ?_⟩⟩
  · exact stays there (reached_of_mem_namesIn found (old member).1 (old member).2 named)
  · obtain ⟨chosen, headed⟩ := requireStart_eq_ok.mp started
    obtain ⟨r, member, same⟩ := mem_heads.mp (headed some)
    have kept := stays member ((reached_iff _).mpr (same ▸ .refl))
    exact requireStart_eq_ok.mpr ⟨chosen, fun _ => same ▸ head_mem_heads kept⟩
  · intro head headed
    obtain ⟨r, member, rfl⟩ := mem_heads.mp headed
    exact path ((reached_iff _).mp (old member).2)

end Grammar

namespace Editing

open Grammar

variable {g g' : Grammar} {reached : List Name}

theorem removeDuplicates_leaves (left : removeDuplicates.Leaves g () g') :
    g.hasShorthand = false ∧ g' = { g with rules := g.rules.eraseDups } := by
  obtain ⟨plain, worked⟩ := leaves_perform.mp left
  refine ⟨plain (by simp), ?_⟩
  rw [dropRepeated, leaves_current_bind, Leaves, run_forM_commit_bind] at worked
  exact worked.2.symm

/-- Removal of unreachable rules succeeds wherever reachability can be told. -/
theorem leaves_removeUnreachable (found : g.reachable = .ok reached) :
    removeUnreachable.Leaves g () (g.retain (· ∈ reached)) := by
  refine leaves_perform.mpr ⟨fun _ => (reachable_eq_ok found).1, ?_⟩
  rw [dropUnreachable, leaves_current_bind]
  split
  · next empty =>
    have same : g.retain (· ∈ reached) = g := retain_eq_self (by simp [Grammar.dropped, empty])
    exact leaves_pure.mpr ⟨rfl, same.symm⟩
  · refine leaves_ofExcept_bind.mpr ⟨reached, mapError_eq_ok.mpr found, ?_⟩
    rw [Leaves, run_edit_bind, run_forM_commit_bind]
    split <;> exact ⟨rfl, rfl⟩

/-- It commits one record for each rule that goes, in order. -/
theorem records_removeUnreachable (found : g.reachable = .ok reached) :
    (removeUnreachable g).records =
      (g.dropped (· ∈ reached)).map fun rule => ⟨rule, [], .unreachableRemoval⟩ := by
  have plain : g.hasShorthand = false := (reachable_eq_ok found).1
  have worked := (leaves_perform.mp (leaves_removeUnreachable found)).2
  rw [removeUnreachable, Run.records, run_perform_ok plain worked.1, List.filterMap_append,
    dropUnreachable, run_current_bind]
  split
  · next empty => simp [Grammar.dropped, empty]
  · rw [found, mapError_ok, run_ofExcept_ok_bind, run_edit_bind, run_forM_commit_bind]
    split <;> simp [Function.comp_def, Transformation.reason]

theorem removeUnreachable_leaves (left : removeUnreachable.Leaves g () g') :
    g.hasShorthand = false ∧ g.Pruned g' := by
  obtain ⟨plain, worked⟩ := leaves_perform.mp left
  refine ⟨plain (by simp), ?_⟩
  rw [dropUnreachable, leaves_current_bind] at worked
  split at worked
  · next empty =>
    obtain rfl : g = g' := (leaves_pure.mp worked).2
    exact ⟨.refl _, fun r _ other member _ => member, .inl empty⟩
  · next some =>
    obtain ⟨reached, found, rest⟩ := leaves_ofExcept_bind.mp worked
    obtain rfl : g.retain (· ∈ reached) = g' := by
      rw [Leaves, run_edit_bind, run_forM_commit_bind] at rest
      rw [← rest.2]
      split <;> rfl
    exact pruned_retain (mapError_eq_ok.mp found) some

end Editing
end Ebnf
