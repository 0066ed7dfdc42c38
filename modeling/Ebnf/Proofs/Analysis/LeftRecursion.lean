import Mathlib.Data.List.Chain
import Mathlib.Data.List.Nodup
import Ebnf.Analysis.LeftRecursion
import Ebnf.Language.Derives
import Ebnf.Proofs.Analysis.Search
import Ebnf.Proofs.Lookup

/-! The search for left recursion. It takes no head twice and drops a path whose rules are those of
an earlier one, so it does not list every way round. But a rule that leads back to its head ends a
path in the walk from the head that it leads to, and so it is on some cycle of the list. -/
namespace Ebnf

namespace Grammar

/-- A path of rules of a grammar with different heads, from `root` to a rule that begins with the
name that comes next. -/
structure Walk (g : Grammar) (root : Name) (path : List Rule) : Prop where
  rules : ∀ rule ∈ path, rule ∈ g.rules
  heads : (path.map Rule.head).Nodup
  linked : path.IsChain fun rule next => rule.lead = .nonTerminal next.head
  begins : path.head?.map Rule.head = some root

/-- A walk that closes at the name where it begins. -/
structure RoundTrip (g : Grammar) (root : Name) (path : List Rule) : Prop extends
    g.Walk root path where
  closes : path.getLast?.map Rule.lead = some (.nonTerminal root)

variable {g : Grammar} {root x y : Name} {rule : Rule} {before path : List Rule}
  {pending : List Name} {paths : List (Rule × List Rule)}

theorem leads_iff : g.Leads x y ↔ ∃ rule ∈ g.rulesOf x, rule.lead = .nonTerminal y := by
  simp only [Leads, mem_rulesOf, and_assoc]

theorem Leads.mem_heads (h : g.Leads x y) : x ∈ g.heads := by
  obtain ⟨rule, member, rfl, _⟩ := h
  exact head_mem_heads member

theorem Walk.extend {next : Name} {following : Rule} (walk : g.Walk root (before ++ [rule]))
    (leads : rule.lead = .nonTerminal next) (member : following ∈ g.rulesOf next)
    (unvisited : ∀ r ∈ before ++ [rule], r.head ≠ next) :
    g.Walk root (before ++ [rule] ++ [following]) := by
  obtain ⟨listed, rfl⟩ := mem_rulesOf.mp member
  refine ⟨?_, ?_, ?_, ?_⟩
  · intro r occurs
    rcases List.mem_append.mp occurs with old | new
    · exact walk.rules r old
    · rwa [List.mem_singleton.mp new]
  · rw [List.map_append, List.nodup_append]
    refine ⟨walk.heads, List.nodup_singleton _, ?_⟩
    rintro _ old _ new rfl
    obtain ⟨r, occurs, same⟩ := List.mem_map.mp old
    exact unvisited r occurs (same.trans (by simpa using new))
  · rw [List.isChain_append]
    refine ⟨walk.linked, List.isChain_singleton _, ?_⟩
    intro r last s first
    obtain rfl : rule = r := by simpa using last
    obtain rfl : following = s := by simpa using first
    exact leads
  · have begins := walk.begins
    cases before <;> simpa using begins

/-- Each path on the stack is a walk, and the search does not return to its heads. -/
def Stacked (g : Grammar) (root : Name) (pending : List Name) (entry : Rule × List Rule) : Prop :=
  g.Walk root (entry.2 ++ [entry.1]) ∧ ∀ r ∈ entry.2 ++ [entry.1], r.head ∉ pending

theorem pathsBack_roundTrip (distinct : pending.Nodup)
    (stacked : ∀ entry ∈ paths, g.Stacked root pending entry)
    (found : path ∈ pathsBack g.rulesOf root pending paths) : g.RoundTrip root path := by
  fun_induction pathsBack g.rulesOf root pending paths with
  | case1 => cases found
  | case2 pending rule before paths _ ih =>
    exact ih distinct (fun entry later => stacked entry (List.mem_cons_of_mem _ later)) found
  | case3 pending rule before paths leads ih =>
    rcases List.mem_cons.mp found with rfl | later
    · have walk := (stacked _ List.mem_cons_self).1
      exact ⟨walk, by simpa using Symbol.name?_eq_some.mp leads⟩
    · exact ih distinct (fun entry rest => stacked entry (List.mem_cons_of_mem _ rest)) later
  | case4 pending rule before paths next leads _ waiting ih =>
    refine ih (distinct.erase next) (fun entry occurs => ?_) found
    rcases List.mem_append.mp occurs with new | old
    · obtain ⟨following, member, rfl⟩ := List.mem_map.mp new
      obtain ⟨walk, visited⟩ := stacked _ List.mem_cons_self
      have fresh : ∀ r ∈ before ++ [rule], r.head ≠ next := by
        intro r inside same
        exact visited r inside (same ▸ waiting)
      refine ⟨walk.extend (Symbol.name?_eq_some.mp leads) member fresh, fun r occurs => ?_⟩
      rcases List.mem_append.mp occurs with earlier | last
      · exact fun again => visited r earlier (List.mem_of_mem_erase again)
      · rw [List.mem_singleton.mp last, (mem_rulesOf.mp member).2]
        exact distinct.not_mem_erase
    · obtain ⟨walk, visited⟩ := stacked entry (List.mem_cons_of_mem _ old)
      exact ⟨walk, fun r occurs again => visited r occurs (List.mem_of_mem_erase again)⟩
  | case5 pending rule before paths _ _ _ _ ih =>
    exact ih distinct (fun entry later => stacked entry (List.mem_cons_of_mem _ later)) found

theorem pathsFrom_roundTrip (found : path ∈ g.pathsFrom root) : g.RoundTrip root path := by
  refine pathsBack_roundTrip (nodup_heads.erase root) (fun entry listed => ?_) found
  obtain ⟨rule, member, rfl⟩ := List.mem_map.mp listed
  obtain ⟨occurs, rfl⟩ := mem_rulesOf.mp member
  refine ⟨⟨by simpa using occurs, by simp, by simp, by simp⟩, ?_⟩
  simpa using nodup_heads.not_mem_erase

/-- A rule that the search comes to: it is on the stack, or its head can be reached from a name that
a rule on the stack leads to. -/
def Awaited (g : Grammar) (pending : List Name) (paths : List (Rule × List Rule))
    (rule : Rule) : Prop :=
  ∃ entry ∈ paths, entry.1 = rule ∨ ∃ y ∈ pending, entry.1.lead = .nonTerminal y ∧
    Through g.Leads pending y rule.head

theorem awaited_of_through {next : Name} (member : rule ∈ g.rules)
    (through : Through g.Leads pending next rule.head) :
    g.Awaited pending ((g.rulesOf next).map (·, before)) rule := by
  rcases through.cases_head with rfl | ⟨z, ⟨leads, waiting⟩, rest⟩
  · exact ⟨(rule, before), List.mem_map.mpr ⟨rule, by simp [member], rfl⟩, .inl rfl⟩
  · obtain ⟨following, listed, lead⟩ := leads_iff.mp leads
    exact ⟨(following, before), List.mem_map.mpr ⟨following, listed, rfl⟩,
      .inr ⟨z, waiting, lead, rest⟩⟩

theorem Awaited.append_right (h : g.Awaited pending paths rule)
    (more : List (Rule × List Rule)) : g.Awaited pending (paths ++ more) rule := by
  obtain ⟨entry, listed, rest⟩ := h
  exact ⟨entry, List.mem_append_left _ listed, rest⟩

/-- An awaited rule stays awaited when the search visits a name: whatever was reached through the
name is reached from its rules, which are on the stack now. -/
theorem Awaited.visit {next : Name} {rule' : Rule}
    (h : g.Awaited pending ((rule', before) :: paths) rule)
    (member : rule ∈ g.rules) (leads : rule'.lead = .nonTerminal next) (other : rule' ≠ rule) :
    g.Awaited (pending.erase next) ((g.rulesOf next).map (·, before ++ [rule']) ++ paths) rule := by
  obtain ⟨entry, listed, awaited⟩ := h
  rcases List.mem_cons.mp listed with rfl | later
  · rcases awaited with same | ⟨y, _, lead, through⟩
    · exact absurd same other
    · obtain rfl : next = y := by simpa using leads.symm.trans lead
      exact (awaited_of_through member ((through.avoid_erase next).elim id id)).append_right paths
  · rcases awaited with same | ⟨y, waiting, lead, through⟩
    · exact ⟨entry, List.mem_append_right _ later, .inl same⟩
    · rcases through.avoid_erase next with direct | around
      · by_cases same : y = next
        · subst same
          exact (awaited_of_through member direct).append_right paths
        · exact ⟨entry, List.mem_append_right _ later,
            .inr ⟨y, (List.mem_erase_of_ne same).mpr waiting, lead, direct⟩⟩
      · exact (awaited_of_through member around).append_right paths

theorem Awaited.skip {rule' : Rule} (h : g.Awaited pending ((rule', before) :: paths) rule)
    (other : rule' ≠ rule) (idle : ∀ y ∈ pending, rule'.lead ≠ .nonTerminal y) :
    g.Awaited pending paths rule := by
  obtain ⟨entry, listed, awaited⟩ := h
  rcases List.mem_cons.mp listed with rfl | later
  · rcases awaited with same | ⟨y, waiting, lead, _⟩
    · exact absurd same other
    · exact absurd lead (idle y waiting)
  · exact ⟨entry, later, awaited⟩

theorem pathsBack_complete (member : rule ∈ g.rules) (closes : rule.lead = .nonTerminal root)
    (visited : root ∉ pending) (awaited : g.Awaited pending paths rule) :
    ∃ path ∈ pathsBack g.rulesOf root pending paths, rule ∈ path := by
  have named : rule.lead.name? = some root := Symbol.name?_eq_some.mpr closes
  fun_induction pathsBack g.rulesOf root pending paths with
  | case1 =>
    obtain ⟨_, nothing, _⟩ := awaited
    cases nothing
  | case2 pending rule' before paths unnamed ih =>
    refine ih visited (awaited.skip ?_ ?_)
    · rintro rfl
      simp [named] at unnamed
    · intro y _ lead
      simp [Symbol.name?_eq_some.mpr lead] at unnamed
  | case3 pending rule' before paths leads ih =>
    by_cases same : rule' = rule
    · exact ⟨before ++ [rule'], List.mem_cons_self, by simp [same]⟩
    · obtain ⟨path, found, occurs⟩ := ih visited (awaited.skip same fun y waiting lead => by
        obtain rfl : root = y := by simpa [lead, Symbol.name?] using leads.symm
        exact visited waiting)
      exact ⟨path, List.mem_cons_of_mem _ found, occurs⟩
  | case4 pending rule' before paths next leads other _ ih =>
    refine ih (fun again => visited (List.mem_of_mem_erase again))
      (awaited.visit member (Symbol.name?_eq_some.mp leads) ?_)
    rintro rfl
    exact other (Option.some.inj (leads.symm.trans named))
  | case5 pending rule' before paths next leads other done ih =>
    refine ih visited (awaited.skip ?_ ?_)
    · rintro rfl
      exact other (Option.some.inj (leads.symm.trans named))
    · intro y waiting lead
      obtain rfl : next = y := Option.some.inj (leads.symm.trans (Symbol.name?_eq_some.mpr lead))
      exact done waiting

/-- The walk from a name finds every rule that leads to the name and can be reached from it. -/
theorem exists_mem_pathsFrom (member : rule ∈ g.rules) (closes : rule.lead = .nonTerminal root)
    (back : Relation.ReflTransGen g.Leads root rule.head) :
    ∃ path ∈ g.pathsFrom root, rule ∈ path := by
  refine pathsBack_complete member closes nodup_heads.not_mem_erase (awaited_of_through member ?_)
  -- Every name on the way back is a head: it leads on, or it is the head of the rule.
  suffices wide : Through g.Leads g.heads root rule.head from
    (wide.avoid_erase root).elim id id
  clear closes
  induction back using Relation.ReflTransGen.head_induction_on with
  | refl => exact .refl
  | head leads rest ih =>
    refine Relation.ReflTransGen.head ⟨leads, ?_⟩ ih
    rcases rest.cases_head with same | ⟨_, next, _⟩
    · exact same ▸ head_mem_heads member
    · exact next.mem_heads

theorem reaches_of_linked {first : Rule} (rules : ∀ rule ∈ first :: path, rule ∈ g.rules)
    (linked : (first :: path).IsChain fun rule next => rule.lead = .nonTerminal next.head)
    (member : rule ∈ first :: path) : Relation.ReflTransGen g.Leads first.head rule.head := by
  induction path generalizing first with
  | nil =>
    obtain rfl := List.mem_singleton.mp member
    exact .refl
  | cons second path ih =>
    obtain ⟨lead, linked⟩ := List.isChain_cons_cons.mp linked
    rcases List.mem_cons.mp member with rfl | later
    · exact .refl
    · exact .head ⟨first, rules first List.mem_cons_self, rfl, lead⟩
        (ih (fun r rest => rules r (List.mem_cons_of_mem _ rest)) linked later)

theorem reaches_last_of_linked {first : Rule} (rules : ∀ rule ∈ first :: path, rule ∈ g.rules)
    (linked : (first :: path).IsChain fun rule next => rule.lead = .nonTerminal next.head)
    (closes : (first :: path).getLast?.map Rule.lead = some (.nonTerminal root))
    (member : rule ∈ first :: path) :
    ∃ y, rule.lead = .nonTerminal y ∧ Relation.ReflTransGen g.Leads y root := by
  induction path generalizing first rule with
  | nil =>
    obtain rfl := List.mem_singleton.mp member
    exact ⟨root, by simpa using closes, .refl⟩
  | cons second path ih =>
    obtain ⟨lead, linked⟩ := List.isChain_cons_cons.mp linked
    have later : ∀ rule ∈ second :: path,
        ∃ y, rule.lead = .nonTerminal y ∧ Relation.ReflTransGen g.Leads y root := fun _ =>
      ih (fun r rest => rules r (List.mem_cons_of_mem _ rest)) linked (by simpa using closes)
    rcases List.mem_cons.mp member with rfl | rest
    · obtain ⟨y, next, back⟩ := later second List.mem_cons_self
      exact ⟨second.head, lead, .head ⟨second, rules second (by simp), rfl, next⟩ back⟩
    · exact later rule rest

/-- Every rule of a round trip leads back to its head. -/
theorem RoundTrip.leads_back (trip : g.RoundTrip root path) (member : rule ∈ path) :
    ∃ y, rule.lead = .nonTerminal y ∧ Relation.ReflTransGen g.Leads y rule.head := by
  obtain ⟨walk, closes⟩ := trip
  cases path with
  | nil => cases member
  | cons first path =>
    obtain rfl : first.head = root := by simpa using walk.begins
    obtain ⟨y, lead, back⟩ := reaches_last_of_linked walk.rules walk.linked closes member
    exact ⟨y, lead, back.trans (reaches_of_linked walk.rules walk.linked member)⟩

/-! Paths that are made of the same rules as an earlier one are dropped. -/

theorem sameRules_iff {p q : List Rule} : sameRules p q = true ↔ ∀ rule, rule ∈ p ↔ rule ∈ q := by
  simp only [sameRules, Bool.and_eq_true, List.all_eq_true, decide_eq_true_eq]
  exact ⟨fun h rule => ⟨h.1 rule, h.2 rule⟩, fun h => ⟨fun r => (h r).mp, fun r => (h r).mpr⟩⟩

theorem eraseDupsBy_sameRules_cons (p : List Rule) (ps : List (List Rule)) :
    (p :: ps).eraseDupsBy sameRules =
      p :: (ps.eraseDupsBy sameRules).filter fun q => sameRules q p = false := by
  rw [List.eraseDupsBy_cons, eraseDupsBy_filter]
  intro q r same
  have alike : sameRules q p = sameRules r p := by
    rw [Bool.eq_iff_iff, sameRules_iff, sameRules_iff]
    exact forall_congr' fun rule => iff_congr (sameRules_iff.mp same rule) Iff.rfl
  rw [alike]

theorem eraseDupsBy_prefix_append (ps qs : List (List Rule)) :
    ps.eraseDupsBy sameRules <+: (ps ++ qs).eraseDupsBy sameRules := by
  induction ps with
  | nil => exact List.nil_prefix
  | cons p ps ih =>
    rw [List.cons_append, eraseDupsBy_sameRules_cons, eraseDupsBy_sameRules_cons]
    exact List.cons_prefix_cons.mpr ⟨rfl, ih.filter _⟩

theorem mem_of_mem_eraseDupsBy {p : List Rule} {ps : List (List Rule)}
    (h : p ∈ ps.eraseDupsBy sameRules) : p ∈ ps := by
  induction ps with
  | nil => cases h
  | cons q ps ih =>
    rw [eraseDupsBy_sameRules_cons] at h
    rcases List.mem_cons.mp h with rfl | later
    · exact List.mem_cons_self
    · exact List.mem_cons_of_mem _ (ih (List.mem_filter.mp later).1)

theorem exists_mem_eraseDupsBy {p : List Rule} {ps : List (List Rule)} (member : p ∈ ps) :
    ∃ q ∈ ps.eraseDupsBy sameRules, ∀ rule, rule ∈ q ↔ rule ∈ p := by
  induction ps with
  | nil => cases member
  | cons first ps ih =>
    rw [eraseDupsBy_sameRules_cons]
    rcases List.mem_cons.mp member with rfl | later
    · exact ⟨p, List.mem_cons_self, fun _ => Iff.rfl⟩
    · obtain ⟨q, kept, same⟩ := ih later
      by_cases repeated : sameRules q first = true
      · refine ⟨first, List.mem_cons_self, fun r => ?_⟩
        exact (sameRules_iff.mp repeated r).symm.trans (same r)
      · exact ⟨q, List.mem_cons_of_mem _ (List.mem_filter.mpr ⟨kept, by simp [repeated]⟩), same⟩

theorem pairwise_eraseDupsBy (ps : List (List Rule)) :
    (ps.eraseDupsBy sameRules).Pairwise fun p q => ¬ ∀ rule, rule ∈ p ↔ rule ∈ q := by
  induction ps with
  | nil => exact .nil
  | cons p ps ih =>
    rw [eraseDupsBy_sameRules_cons]
    refine List.pairwise_cons.mpr ⟨fun q kept same => ?_, ih.filter _⟩
    have other := (List.mem_filter.mp kept).2
    simp [sameRules_iff.mpr fun rule => (same rule).symm] at other

end Grammar
end Ebnf
