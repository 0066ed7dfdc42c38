import Ebnf.Proofs.Editing.Change

/-! The order of the heads. Rules of the same head in the place of another do not move it, and a
head whose rules are taken out comes back where the first of them was. -/
namespace Ebnf.Grammar

variable {g : Grammar} {head : Name} {rule : Rule} {rules : List Rule}

theorem heads_replaced (member : rule ∈ g.rules) (some : rules ≠ [])
    (same : ∀ r ∈ rules, r.head = rule.head) : (g.replaced rule rules).heads = g.heads := by
  obtain ⟨before, after, split, first⟩ := List.eq_append_cons_of_mem member
  have around : (g.replaced rule rules).rules = before ++ (rules ++ after) := by
    change replaceFirst rule rules g.rules = _
    rw [split]
    exact replaceFirst_append first after
  have block : ∀ name ∈ rules.map Rule.head, name = rule.head := by simpa using same
  have occurs : rules.map Rule.head ≠ [] := by simpa using some
  simp only [heads, around, split, List.map_append, List.map_cons]
  exact eraseDups_append_congr (eraseDups_repeated occurs block) _

/-- Where the rules of a head are in a grammar, and what they give way to. -/
theorem rules_withRulesOf (rules : List Rule) (headed : head ∈ g.heads) : ∃ before first after,
    g.rules = before ++ first :: after ∧ first.head = head ∧ (∀ r ∈ before, r.head ≠ head) ∧
      (g.withRulesOf head rules).rules = before ++ rules ++ after.filter (·.head ≠ head) := by
  obtain ⟨rule, member, named⟩ := mem_heads.mp headed
  obtain ⟨first, found⟩ : ∃ first, g.rules.find? (·.head = head) = some first := by
    rw [← Option.isSome_iff_exists, List.find?_isSome]
    exact ⟨rule, member, by simpa using named⟩
  obtain ⟨begins, before, after, split, earlier⟩ := List.find?_eq_some_iff_append.mp found
  have earlier : ∀ r ∈ before, r.head ≠ head := by simpa using earlier
  have begins : first.head = head := by simpa using begins
  refine ⟨before, first, after, split, begins, earlier, ?_⟩
  have position : g.rules.findIdx (·.head = head) = before.length := by
    rw [split, List.findIdx_append]
    simp [List.findIdx_cons, begins]
    exact fun r member same => absurd same (earlier r member)
  have kept : (g.retain (· ≠ head)).rules = before ++ after.filter (·.head ≠ head) := by
    change g.rules.filter (·.head ≠ head) = _
    rw [split, List.filter_append, List.filter_eq_self.mpr (by simpa using earlier)]
    simp [begins]
  rw [withRulesOf, insertAt, kept, position]
  simp

theorem withRulesOf_perm (rules : List Rule) : (g.withRulesOf head rules).rules.Perm
    (rules ++ g.rules.filter (·.head ≠ head)) := by
  let kept := g.rules.filter (·.head ≠ head)
  let position := g.rules.findIdx (·.head = head)
  change (kept.take position ++ rules ++ kept.drop position).Perm (rules ++ kept)
  have rest : (rules ++ kept) = rules ++ (kept.take position ++ kept.drop position) := by
    rw [List.take_append_drop]
  rw [rest, ← List.append_assoc]
  exact List.perm_append_comm.append_right _

/-- The heads come in the same order as before. New ones may stand among them. -/
theorem heads_withRulesOf {p : Name → Bool} (headed : head ∈ g.heads) (kept : p head = true)
    (again : ∃ r ∈ rules, r.head = head) (new : ∀ r ∈ rules, r.head = head ∨ p r.head = false) :
    (g.withRulesOf head rules).heads.filter p = g.heads.filter p := by
  obtain ⟨before, first, after, split, begins, _, around⟩ := rules_withRulesOf rules headed
  let others := (after.map Rule.head).filter p
  have block : ∀ name ∈ (rules.map Rule.head).filter p, name = head := by
    intro name listed
    obtain ⟨inside, chosen⟩ := List.mem_filter.mp listed
    obtain ⟨r, member, rfl⟩ := List.mem_map.mp inside
    rcases new r member with same | dropped
    · exact same
    · simp [dropped] at chosen
  have some : (rules.map Rule.head).filter p ≠ [] := by
    obtain ⟨r, member, same⟩ := again
    have inside : head ∈ rules.map Rule.head := List.mem_map.mpr ⟨r, member, same⟩
    exact List.ne_nil_of_mem (List.mem_filter.mpr ⟨inside, kept⟩)
  have rest : ((after.filter (·.head ≠ head)).map Rule.head).filter p =
      others.filter (· ≠ head) := by
    simp only [others, List.filter_map, List.filter_filter]
    congr 1
    apply List.filter_congr
    intro r _
    simp [Bool.and_comm]
  have later : ((rules.map Rule.head).filter p ++ others.filter (· ≠ head)).eraseDups =
      (head :: others).eraseDups := by
    rw [eraseDups_repeated some block, eraseDups_cons_filter, eraseDups_cons_filter,
      eraseDups_filter, List.filter_filter]
    simp
  simp only [heads, around, split, ← eraseDups_filter, List.map_append, List.filter_append,
    List.map_cons, begins, List.filter_cons_of_pos kept, rest, List.append_assoc]
  exact eraseDups_append_congr later _

end Ebnf.Grammar
