import Ebnf.Proofs.Analysis.Cycles

/-! Which head left recursion is resolved at. A cycle through several heads always leaves its root
another alternative, and the list of cycles goes through the roots in the order of the heads. So
where no head with another alternative begins its own rules, the first cycle of the list belongs to
the first head that leads back to itself. -/
namespace Ebnf.Grammar

variable {g g' : Grammar} {root head x y : Name} {rule : Rule} {path : List Rule}
  {cycles : List Cycle}

/-- A head that leads back to itself, and has an alternative that does not begin with it. -/
def Active (g : Grammar) (head : Name) : Prop :=
  g.baseRulesOf head ≠ [] ∧ Relation.TransGen g.Leads head head

/-- The names that `g` has begin their rules in `g'` as they do in `g`, and nothing leads to another
name. -/
structure BeginsWithin (g' g : Grammar) : Prop where
  old : ∀ r ∈ g'.rules, r.head ∈ g.names →
    ∃ rule ∈ g.rules, rule.head = r.head ∧ rule.lead = r.lead
  known : ∀ x y, g'.Leads x y → y ∈ g.names

namespace BeginsWithin

variable (within : g'.BeginsWithin g)

include within

theorem leads (leads : g'.Leads x y) (named : x ∈ g.names) : g.Leads x y := by
  obtain ⟨r, member, rfl, lead⟩ := leads
  obtain ⟨rule, listed, same, begins⟩ := within.old r member named
  exact ⟨rule, listed, same, begins.trans lead⟩

theorem named (path : Relation.TransGen g'.Leads x y) : y ∈ g.names := by
  obtain ⟨_, _, last⟩ := Relation.TransGen.tail'_iff.mp path
  exact within.known _ _ last

/-- What an old name leads to, it led to before. -/
theorem transGen (path : Relation.TransGen g'.Leads x y) (named : x ∈ g.names) :
    Relation.TransGen g.Leads x y := by
  induction path with
  | single leads => exact .single (within.leads leads named)
  | tail path leads ih => exact ih.tail (within.leads leads (within.named path))

/-- A head that leads back to itself did so before. -/
theorem around (around : Relation.TransGen g'.Leads x x) :
    x ∈ g.names ∧ Relation.TransGen g.Leads x x :=
  ⟨within.named around, within.transGen around (within.named around)⟩

theorem based (based : g'.baseRulesOf x ≠ []) (named : x ∈ g.names) : g.baseRulesOf x ≠ [] := by
  obtain ⟨r, listed⟩ := List.exists_mem_of_ne_nil _ based
  obtain ⟨⟨member, rfl⟩, others⟩ := mem_baseRulesOf.mp listed
  obtain ⟨rule, known, same, begins⟩ := within.old r member named
  refine baseRulesOf_ne_nil known same ?_
  rwa [Rule.isLeftRecursive, begins, same]

theorem active (active : g'.Active x) : g.Active x := by
  obtain ⟨named, around⟩ := within.around active.2
  exact ⟨within.based active.1 named, around⟩

end BeginsWithin

theorem around_of_recursive (recursive : g.leftRecursiveRulesOf head ≠ []) :
    Relation.TransGen g.Leads head head := by
  obtain ⟨rule, listed⟩ := List.exists_mem_of_ne_nil _ recursive
  obtain ⟨⟨member, rfl⟩, loop⟩ := mem_leftRecursiveRulesOf.mp listed
  exact .single ⟨rule, member, rfl, Rule.isLeftRecursive_iff.mp loop⟩

/-- A rule that begins with its own head is a cycle by itself, and is on no other. -/
theorem RoundTrip.eq_singleton (trip : g.RoundTrip root path) (member : rule ∈ path)
    (loop : rule.lead = .nonTerminal rule.head) : path = [rule] := by
  obtain ⟨before, after, rfl⟩ := List.append_of_mem member
  have heads := trip.heads
  rw [List.map_append, List.map_cons] at heads
  cases after with
  | cons next after =>
    have linked := (List.isChain_append.mp trip.linked).2.1
    have lead := (List.isChain_cons_cons.mp linked).1
    have again : rule.head = next.head := Symbol.nonTerminal.inj (loop.symm.trans lead)
    have apart := (List.nodup_cons.mp (List.nodup_append.mp heads).2.1).1
    exact absurd (again ▸ List.mem_cons_self) apart
  | nil =>
    have closes : rule.head = root := by simpa [loop] using trip.closes
    cases before with
    | nil => rfl
    | cons first before =>
      have begins : first.head = root := by simpa using trip.begins
      have apart := (List.nodup_append.mp heads).2.2
      exact absurd (begins.trans closes.symm)
        (apart _ List.mem_cons_self _ List.mem_cons_self)

theorem RoundTrip.exists_first (trip : g.RoundTrip root path) :
    ∃ first ∈ path, first ∈ g.rules ∧ first.head = root := by
  cases path with
  | nil => simpa using trip.begins
  | cons first path =>
    exact ⟨first, List.mem_cons_self, trip.rules first List.mem_cons_self, by
      simpa using trip.begins⟩

theorem RoundTrip.based (trip : g.RoundTrip root path) (several : ∀ rule, path ≠ [rule]) :
    g.baseRulesOf root ≠ [] := by
  obtain ⟨first, member, listed, begins⟩ := trip.exists_first
  have other : first.isLeftRecursive = false := by
    apply Bool.eq_false_iff.mpr
    intro recursive
    exact several first (trip.eq_singleton member (Rule.isLeftRecursive_iff.mp recursive))
  exact baseRulesOf_ne_nil listed begins other

theorem exists_direct_cycle (paths : cycles.map Cycle.rules = g.leftRecursivePaths)
    (recursive : rule ∈ g.leftRecursiveRulesOf head) : ∃ c ∈ cycles, c.rules = [rule] := by
  obtain ⟨⟨member, _⟩, loop⟩ := mem_leftRecursiveRulesOf.mp recursive
  have lead := Rule.isLeftRecursive_iff.mp loop
  obtain ⟨path, listed, occurs⟩ := (exists_leftRecursivePath_iff member lead).mpr .refl
  obtain ⟨root, _, trip⟩ := leftRecursivePaths_roundTrip listed
  rw [← paths] at listed
  obtain ⟨c, known, rfl⟩ := List.mem_map.mp listed
  exact ⟨c, known, trip.eq_singleton occurs lead⟩

theorem leftRecursive_of_isDirect {c : Cycle} (trip : g.RoundTrip c.root c.rules)
    (direct : c.isDirect = true) : c.first.rule ∈ g.leftRecursiveRulesOf c.root := by
  obtain ⟨step, _ | ⟨_, _⟩⟩ := c
  · have closes : step.rule.lead = .nonTerminal step.rule.head := by
      simpa [Cycle.rules, Cycle.steps, Cycle.root] using trip.closes
    apply mem_leftRecursiveRulesOf.mpr
    exact ⟨⟨trip.rules _ List.mem_cons_self, rfl⟩, Rule.isLeftRecursive_iff.mpr closes⟩
  · cases direct

/-- If no cycle that is looked at is direct, no head with another alternative begins its own
rules. -/
theorem cleared_of_indirect (paths : cycles.map Cycle.rules = g.leftRecursivePaths)
    (trips : ∀ c ∈ cycles, g.RoundTrip c.root c.rules)
    (indirect : ∀ c ∈ cycles.filter (fun c => g.hasBaseCase c.root), c.isDirect = false)
    (based : g.baseRulesOf head ≠ []) : g.leftRecursiveRulesOf head = [] := by
  rw [List.eq_nil_iff_forall_not_mem]
  intro rule recursive
  obtain ⟨c, listed, alone⟩ := exists_direct_cycle paths recursive
  have same : rule.head = c.root := by simpa [alone] using (trips c listed).begins
  rw [(mem_leftRecursiveRulesOf.mp recursive).1.2] at same
  have direct := indirect c (List.mem_filter.mpr ⟨listed, hasBaseCase_iff.mpr (same ▸ based)⟩)
  obtain ⟨step, _ | ⟨_, _⟩⟩ := c
  · cases direct
  · simp [Cycle.rules, Cycle.steps] at alone

/-- If one of the first heads leads back to itself, the walks from these heads have found a cycle
whose root has another alternative. -/
theorem exists_path_of_active {before : List Name} (member : head ∈ before)
    (active : g.Active head) : ∃ path ∈ (before.flatMap g.pathsFrom).eraseDupsBy sameRules,
      ∃ root ∈ before, g.RoundTrip root path ∧ g.baseRulesOf root ≠ [] := by
  obtain ⟨based, around⟩ := active
  obtain ⟨_, back, rule, closing, rfl, lead⟩ := Relation.TransGen.tail'_iff.mp around
  obtain ⟨path, found, _⟩ := exists_mem_pathsFrom closing lead back
  obtain ⟨kept, listed, same⟩ :=
    exists_mem_eraseDupsBy (List.mem_flatMap.mpr ⟨head, member, found⟩)
  obtain ⟨root, earlier, walked⟩ := List.mem_flatMap.mp (mem_of_mem_eraseDupsBy listed)
  have trip := pathsFrom_roundTrip walked
  refine ⟨kept, listed, root, earlier, trip, ?_⟩
  by_cases alone : ∃ rule, kept = [rule]
  · -- The two paths are the same single rule, so they belong to the same head.
    obtain ⟨only, rfl⟩ := alone
    obtain ⟨first, occurs, _, begins⟩ := (pathsFrom_roundTrip found).exists_first
    obtain rfl : first = only := List.mem_singleton.mp ((same first).mpr occurs)
    have rooted : first.head = root := by simpa using trip.begins
    rwa [← rooted, begins]
  · exact trip.based fun rule equal => alone ⟨rule, equal⟩

theorem root_mem_of_walked {c : Cycle} {roots : List Name} (trip : g.RoundTrip c.root c.rules)
    (walked : c.rules ∈ (roots.flatMap g.pathsFrom).eraseDupsBy sameRules) : c.root ∈ roots := by
  obtain ⟨root, member, found⟩ := List.mem_flatMap.mp (mem_of_mem_eraseDupsBy walked)
  have same : c.root = root :=
    Option.some.inj (trip.begins.symm.trans (pathsFrom_roundTrip found).begins)
  exact same ▸ member

/-- The heads before the root of the first cycle that is looked at are not active. -/
theorem idle_before_root {first : Cycle} {others : List Cycle}
    (paths : cycles.map Cycle.rules = g.leftRecursivePaths)
    (trips : ∀ c ∈ cycles, g.RoundTrip c.root c.rules)
    (kept : cycles.filter (fun c => g.hasBaseCase c.root) = first :: others) :
    ∃ before after, g.heads = before ++ first.root :: after ∧ ∀ head ∈ before, ¬ g.Active head := by
  have known : first ∈ cycles := (List.mem_filter.mp (kept ▸ List.mem_cons_self)).1
  obtain ⟨rule, _, listed, begins⟩ := (trips first known).exists_first
  obtain ⟨before, after, heads⟩ := List.append_of_mem (begins ▸ head_mem_heads listed)
  refine ⟨before, after, heads, ?_⟩
  intro head member active
  -- The paths found from the heads before the root come first in the list.
  obtain ⟨later, split⟩ := eraseDupsBy_prefix_append (before.flatMap g.pathsFrom)
    ((first.root :: after).flatMap g.pathsFrom)
  rw [← List.flatMap_append, ← heads] at split
  change _ = g.leftRecursivePaths at split
  rw [← paths] at split
  obtain ⟨early, rest, rfl, found, _⟩ := List.map_eq_append_iff.mp split.symm
  have earlier : ∀ c ∈ early, c.root ∈ before := by
    intro c inside
    apply root_mem_of_walked (trips c (List.mem_append_left _ inside))
    exact found ▸ List.mem_map_of_mem inside
  obtain ⟨path, listed, root, _, trip, based⟩ := exists_path_of_active member active
  rw [← found] at listed
  obtain ⟨c, inside, rfl⟩ := List.mem_map.mp listed
  have same : root = c.root := Option.some.inj
    (trip.begins.symm.trans (trips c (List.mem_append_left _ inside)).begins)
  have based : g.hasBaseCase c.root = true := hasBaseCase_iff.mpr (same ▸ based)
  -- So the first cycle that is looked at is one of those, but its root comes after their roots.
  rw [List.filter_append] at kept
  cases front : early.filter (fun c => g.hasBaseCase c.root) with
  | nil => exact List.filter_eq_nil_iff.mp front c inside based
  | cons c others =>
    rw [front, List.cons_append] at kept
    have headed : first ∈ early.filter fun c => g.hasBaseCase c.root := by
      rw [front, (List.cons.inj kept).1]
      exact List.mem_cons_self
    have place := earlier first (List.mem_filter.mp headed).1
    have apart : (before ++ first.root :: after).Nodup := heads ▸ nodup_heads
    exact (List.nodup_append.mp apart).2.2 _ place _ List.mem_cons_self rfl

end Ebnf.Grammar
