import Mathlib
import Ebnf.Proofs.Analysis.Chains
import Ebnf.Proofs.Editing.Bounded
import Ebnf.Proofs.Editing.Replay
import Ebnf.Proofs.Pass.Units

/-! Why the expansion of units comes to an end. The units that wait to be expanded are steps from
head to head. The expansion of one takes a step away and adds a step past its target for each that
went on from there, so that no chain of steps gets longer. Where there is no circle of them, a round
takes the first step of every longest chain away. Where there is one, a round shortens a circle, as
each of its steps is expanded in turn, or else it makes a head name itself. Such a head is no target
any more and never becomes one again, so in the end there are no circles. -/
namespace Ebnf

open Grammar Editing

variable {g g' : Grammar} {a b x y : Name} {k m : Nat} {rule : Rule}
  {aside aside' last rules rest : List Rule}

/-- The rule of a non-terminal that names another and says no more. -/
def Rule.unit (head target : Name) : Rule := ⟨head, .nonTerminal target, []⟩

theorem Rule.eq_unit (unit : rule.unit? = some y) : rule = Rule.unit rule.head y := by
  obtain ⟨alone, lead⟩ := Rule.unit?_eq_some.mp unit
  rw [Rule.unit, ← alone, ← lead]

namespace Grammar

/-- The unit that names `y` for `x` waits to be expanded. -/
structure Awaits (g : Grammar) (x y : Name) : Prop where
  member : Rule.unit x y ∈ g.rules
  other : x ≠ y
  headed : y ∈ g.heads
  straight : selfLoop y ∉ g.rules

/-- The grammar in which the unit that names `y` for `x` is expanded. -/
def expanded (g : Grammar) (x y : Name) : Grammar :=
  g.replaced (Rule.unit x y) (g.unitExpansion (Rule.unit x y) y)

theorem awaits_iff (member : Rule.unit x y ∈ g.rules) :
    g.Awaits x y ↔ ¬ g.Settled (Rule.unit x y) y := by
  rw [settled_iff_of_unit (Rule.unit?_eq_some.mpr ⟨rfl, rfl⟩), not_or, not_or, not_not]
  exact ⟨fun ⟨_, other, headed, straight⟩ => ⟨other.symm, straight, headed⟩,
    fun ⟨other, straight, headed⟩ => ⟨member, Ne.symm other, headed, straight⟩⟩

theorem unit_mem_unitExpansion : Rule.unit a b ∈ g.unitExpansion (Rule.unit x y) y ↔
    a = x ∧ Rule.unit y b ∈ g.rules := by
  simp only [unitExpansion, List.mem_map, mem_rulesOf]
  constructor
  · rintro ⟨⟨_, _, _⟩, ⟨member, rfl⟩, same⟩
    obtain ⟨rfl, rfl, rfl⟩ := Rule.mk.inj same
    exact ⟨rfl, member⟩
  · rintro ⟨rfl, member⟩
    exact ⟨Rule.unit y b, ⟨member, rfl⟩, rfl⟩

/-- Other units stay. -/
theorem unit_mem_expanded_of_ne (member : Rule.unit a b ∈ g.rules) (other : ¬(a = x ∧ b = y)) :
    Rule.unit a b ∈ (g.expanded x y).rules := by
  refine mem_replaced_of_ne member fun same => other ?_
  injection same with head lead
  exact ⟨head, by simpa using lead⟩

namespace Awaits

variable (awaits : g.Awaits x y)

include awaits

theorem head_mem : x ∈ g.heads := head_mem_heads awaits.member

theorem heads_expanded : (g.expanded x y).heads = g.heads :=
  Grammar.heads_expanded awaits.member
    fun none => (unitExpansion_eq_nil_iff.mp none) awaits.headed

theorem unit_mem_expanded : Rule.unit a b ∈ (g.expanded x y).rules ↔
    a = x ∧ Rule.unit y b ∈ g.rules ∨ Rule.unit a b ∈ g.rules.erase (Rule.unit x y) := by
  rw [expanded, mem_replaced awaits.member, unit_mem_unitExpansion]

theorem old_or_new (member : Rule.unit a b ∈ (g.expanded x y).rules) :
    Rule.unit a b ∈ g.rules ∨ a = x ∧ Rule.unit y b ∈ g.rules :=
  (awaits.unit_mem_expanded.mp member).symm.imp_left List.mem_of_mem_erase

/-- A unit that is not put in stands there as often as before, or once less if it is expanded. -/
theorem count_expanded (old : Rule.unit a b ∉ g.unitExpansion (Rule.unit x y) y) :
    (g.expanded x y).rules.count (Rule.unit a b) =
      (g.rules.erase (Rule.unit x y)).count (Rule.unit a b) := by
  have counted : (g.expanded x y).rules.count (Rule.unit a b) =
      (g.unitExpansion (Rule.unit x y) y ++ g.rules.erase (Rule.unit x y)).count (Rule.unit a b) :=
    (rules_perm_replaced awaits.member).count_eq _
  rw [counted, List.count_append, List.count_eq_zero.mpr old, Nat.zero_add]

/-- A rule that says no more than its head stays. -/
theorem selfLoop_mem_expanded (member : selfLoop b ∈ g.rules) :
    selfLoop b ∈ (g.expanded x y).rules :=
  unit_mem_expanded_of_ne member fun same => awaits.other (same.1 ▸ same.2)

/-- A step after the expansion is one from before, or one past the target of the unit. -/
theorem of_expanded (step : (g.expanded x y).Awaits a b) :
    g.Awaits a b ∨ a = x ∧ g.Awaits y b := by
  have headed : b ∈ g.heads := awaits.heads_expanded ▸ step.headed
  have straight : selfLoop b ∉ g.rules := fun loop =>
    step.straight (awaits.selfLoop_mem_expanded loop)
  rcases awaits.old_or_new step.member with old | ⟨same, new⟩
  · exact .inl ⟨old, step.other, headed, straight⟩
  · refine .inr ⟨same, new, ?_, headed, straight⟩
    rintro rfl
    exact straight new

/-- Other steps stay, where their targets do not come to name themselves. -/
theorem expanded_of_ne (step : g.Awaits a b) (other : ¬(a = x ∧ b = y))
    (straight : selfLoop b ∉ (g.expanded x y).rules) : (g.expanded x y).Awaits a b :=
  ⟨unit_mem_expanded_of_ne step.member other, step.other, awaits.heads_expanded ▸ step.headed,
    straight⟩

/-- What the target of the unit has a step to, its head has a step to as well. -/
theorem expanded_past (step : (g.expanded x y).Awaits y b) : (g.expanded x y).Awaits x b := by
  have old : Rule.unit y b ∈ g.rules :=
    (awaits.old_or_new step.member).elim id fun new => absurd new.1.symm awaits.other
  have new : Rule.unit x b ∈ (g.expanded x y).rules :=
    awaits.unit_mem_expanded.mpr (.inl ⟨rfl, old⟩)
  refine ⟨new, ?_, step.headed, step.straight⟩
  rintro rfl
  exact step.straight new

end Awaits

/-- The heads that do not name themselves. -/
def straightHeads (g : Grammar) : Finset Name := {head ∈ g.heads.toFinset | selfLoop head ∉ g.rules}

theorem mem_straightHeads : a ∈ g.straightHeads ↔ a ∈ g.heads ∧ selfLoop a ∉ g.rules := by
  simp [straightHeads]

theorem card_straightHeads_le (g : Grammar) : g.straightHeads.card ≤ g.heads.length :=
  (Finset.card_filter_le _ _).trans (List.toFinset_card_le _)

theorem Awaits.straightHeads_subset (awaits : g.Awaits x y) :
    (g.expanded x y).straightHeads ⊆ g.straightHeads := by
  intro head member
  obtain ⟨headed, straight⟩ := mem_straightHeads.mp member
  exact mem_straightHeads.mpr ⟨awaits.heads_expanded ▸ headed,
    fun loop => straight (awaits.selfLoop_mem_expanded loop)⟩

/-- No chain of units is longer than some length. -/
def ChainsWithin (g : Grammar) (m : Nat) : Prop := ∀ k a b, Chain g.Awaits k a b → k ≤ m

theorem chainsWithin_or_circle (g : Grammar) :
    g.ChainsWithin g.heads.length ∨ HasCircle g.Awaits g.heads.length := by
  by_cases circle : HasCircle g.Awaits g.heads.length
  · exact .inr circle
  refine .inl fun k a b chain => ?_
  cases chain with
  | nil => omega
  | cons step rest =>
    have short := (Chain.cons step rest).lt_or_circle (fun _ _ step => step.headed) step.head_mem
    exact (short.resolve_right circle).le

theorem ChainsWithin.mono (chains : g.ChainsWithin m) (le : m ≤ k) : g.ChainsWithin k :=
  fun j a b chain => (chains j a b chain).trans le

end Grammar

/-! A round in which there are no circles. -/

/-- A chain after the expansion of a unit stretches to one from before it. -/
theorem Grammar.Awaits.stretch (awaits : g.Awaits x y)
    (chain : Chain (g.expanded x y).Awaits k a b) : ∃ j ≥ k, Chain g.Awaits j a b := by
  induction chain with
  | nil => exact ⟨0, le_rfl, .nil⟩
  | cons step _ ih =>
    obtain ⟨j, longer, chain⟩ := ih
    rcases awaits.of_expanded step with old | ⟨rfl, past⟩
    · exact ⟨j + 1, by omega, .cons old chain⟩
    · exact ⟨j + 2, by omega, .cons awaits (.cons past chain)⟩

/-- In the middle of a round, with some rules to come: no chain is longer than `m + 1`, and a unit
that such a chain begins with is still to come as often as it stands in the grammar. -/
structure ChainsShorten (m : Nat) (rest : List Rule) (g : Grammar) : Prop where
  within : g.ChainsWithin (m + 1)
  pending : ∀ a b c, g.Awaits a b → Chain g.Awaits m b c →
    g.rules.count (Rule.unit a b) ≤ rest.count (Rule.unit a b)

namespace ChainsShorten

theorem idle (before : ChainsShorten m (rule :: rest) g)
    (idle : ∀ a b, rule = Rule.unit a b → ¬ g.Awaits a b) : ChainsShorten m rest g := by
  refine ⟨before.within, fun a b c step chain => ?_⟩
  have other : rule ≠ Rule.unit a b := fun same => idle a b same step
  simpa [List.count_cons_of_ne other] using before.pending a b c step chain

theorem expand (before : ChainsShorten m (Rule.unit x y :: rest) g) (awaits : g.Awaits x y) :
    ChainsShorten m rest (g.expanded x y) := by
  refine ⟨fun k a b chain => ?_, fun a b c step chain => ?_⟩
  · obtain ⟨j, longer, chain⟩ := awaits.stretch chain
    exact longer.le.trans (before.within j a b chain)
  obtain ⟨j, longer, stretched⟩ := awaits.stretch chain
  -- A step past the target would go on from the unit itself, in a chain that is too long.
  have direct (past : g.Awaits y b) : a ≠ x := by
    rintro rfl
    have short := before.within (j + 2) a c (.cons awaits (.cons past stretched))
    omega
  have old : g.Awaits a b := (awaits.of_expanded step).resolve_right fun ⟨same, past⟩ =>
    direct past same
  have new : Rule.unit a b ∉ g.unitExpansion (Rule.unit x y) y := by
    rintro new
    obtain ⟨same, member⟩ := unit_mem_unitExpansion.mp new
    refine direct ⟨member, ?_, old.headed, old.straight⟩ same
    rintro rfl
    exact awaits.straight member
  obtain rfl : j = m := by
    have short := before.within (j + 1) a c (.cons old stretched)
    omega
  have pending := before.pending a b c old stretched
  rw [List.count_cons] at pending
  rw [awaits.count_expanded new, List.count_erase]
  omega

theorem chainsWithin (after : ChainsShorten m [] g) : g.ChainsWithin m := by
  intro k a b chain
  cases chain with
  | nil => omega
  | @cons j _ c _ step rest =>
    have short : j + 1 ≤ m + 1 := after.within (j + 1) a b (.cons step rest)
    by_contra long
    obtain rfl : j = m := by omega
    have none := after.pending a c b step rest
    rw [List.count_nil, Nat.le_zero, List.count_eq_zero] at none
    exact none step.member

end ChainsShorten

/-! A round in which there is a circle. -/

namespace Grammar.Awaits

variable (awaits : g.Awaits x y)

include awaits

theorem redirect (chain : Chain (g.expanded x y).Awaits k y b) (other : b ≠ y) :
    Chain (g.expanded x y).Awaits k x b := by
  cases chain with
  | nil => exact absurd rfl other
  | cons step rest => exact .cons (awaits.expanded_past step) rest

/-- A chain that does not end at the target stays, unless it goes through the unit: then there is a
shorter one that goes past its target. -/
theorem compress {R R' : Name → Name → Prop} (kept : ∀ a b, R a b → ¬(a = x ∧ b = y) → R' a b)
    (weaker : ∀ a b, R' a b → (g.expanded x y).Awaits a b) (chain : Chain R k a b)
    (other : b ≠ y) :
    Chain R' k a b ∨ ∃ j < k, 0 < j ∧ Chain (g.expanded x y).Awaits j a b := by
  induction chain with
  | nil => exact .inl .nil
  | @cons k a c b step rest ih =>
    by_cases through : a = x ∧ c = y
    · obtain ⟨rfl, rfl⟩ := through
      obtain ⟨j, le, chain⟩ : ∃ j ≤ k, Chain (g.expanded a c).Awaits j c b := by
        rcases ih other with same | ⟨j, less, _, shorter⟩
        · exact ⟨k, le_rfl, same.mono weaker⟩
        · exact ⟨j, less.le, shorter⟩
      have some : 0 < j := by
        cases chain with
        | nil => exact absurd rfl other
        | cons => omega
      exact .inr ⟨j, by omega, some, awaits.redirect chain other⟩
    · have step : R' a c := kept a c step through
      rcases ih other with same | ⟨j, less, _, shorter⟩
      · exact .inl (.cons step same)
      · exact .inr ⟨j + 1, by omega, by omega, .cons (weaker a c step) shorter⟩

/-- A circle stays, or there is a shorter one. -/
theorem circle_or_shorter {R R' : Name → Name → Prop} {bound : Nat}
    (within : ∀ a b, R a b → g.Awaits a b) (kept : ∀ a b, R a b → ¬(a = x ∧ b = y) → R' a b)
    (weaker : ∀ a b, R' a b → (g.expanded x y).Awaits a b) (circle : HasCircle R bound) :
    HasCircle R' bound ∨ ∃ j < bound, HasCircle (g.expanded x y).Awaits j := by
  obtain ⟨k, short, some, a, around⟩ := circle
  obtain ⟨a, other, around⟩ :=
    around.exists_other_start (fun a b step => (within a b step).other) some y
  rcases awaits.compress kept weaker around other with around | ⟨j, less, some, around⟩
  · exact .inl ⟨k, short, some, a, around⟩
  · exact .inr ⟨j, by omega, j, le_rfl, some, a, around⟩

end Grammar.Awaits

/-- In the middle of a round that began with a circle of length `c + 1`, with some rules to come: if
no head has come to name itself since, there is a shorter circle, or one of units to come. -/
structure CircleShortens (start : Grammar) (c : Nat) (rest : List Rule) (g : Grammar) : Prop where
  heads : g.heads = start.heads
  straight : g.straightHeads ⊆ start.straightHeads
  circle : g.straightHeads = start.straightHeads → HasCircle g.Awaits c ∨
    HasCircle (fun a b => g.Awaits a b ∧ Rule.unit a b ∈ rest) (c + 1)

namespace CircleShortens

variable {start : Grammar} {c : Nat}

theorem initial (circle : HasCircle g.Awaits (c + 1)) : CircleShortens g c g.rules g where
  heads := rfl
  straight := subset_rfl
  circle := fun _ => .inr (circle.weaken fun _ _ step => ⟨step, step.member⟩)

theorem idle (before : CircleShortens start c (rule :: rest) g)
    (idle : ∀ a b, rule = Rule.unit a b → ¬ g.Awaits a b) : CircleShortens start c rest g := by
  refine ⟨before.heads, before.straight, fun same => (before.circle same).imp_right ?_⟩
  refine fun circle => circle.weaken fun a b ⟨step, pending⟩ => ⟨step, ?_⟩
  exact (List.mem_cons.mp pending).resolve_left fun same => idle a b same.symm step

theorem expand (before : CircleShortens start c (Rule.unit x y :: rest) g)
    (awaits : g.Awaits x y) : CircleShortens start c rest (g.expanded x y) := by
  refine ⟨awaits.heads_expanded.trans before.heads,
    awaits.straightHeads_subset.trans before.straight, fun same => ?_⟩
  have unchanged : g.straightHeads = start.straightHeads :=
    before.straight.antisymm (same ▸ awaits.straightHeads_subset)
  have kept (a b : Name) (step : g.Awaits a b) (other : ¬(a = x ∧ b = y)) :
      (g.expanded x y).Awaits a b := by
    refine awaits.expanded_of_ne step other (mem_straightHeads.mp ?_).2
    rw [same, ← unchanged]
    exact mem_straightHeads.mpr ⟨step.headed, step.straight⟩
  have pending (a b : Name) (step : g.Awaits a b ∧ Rule.unit a b ∈ Rule.unit x y :: rest)
      (other : ¬(a = x ∧ b = y)) : (g.expanded x y).Awaits a b ∧ Rule.unit a b ∈ rest := by
    refine ⟨kept a b step.1 other, (List.mem_cons.mp step.2).resolve_left fun same => other ?_⟩
    simpa [Rule.unit] using same
  rcases before.circle unchanged with circle | circle
  · rcases awaits.circle_or_shorter (fun _ _ step => step) kept (fun _ _ step => step) circle with
      same | ⟨j, less, shorter⟩
    · exact .inl same
    · exact .inl (shorter.mono less.le)
  · rcases awaits.circle_or_shorter (fun _ _ step => step.1) pending (fun _ _ step => step.1)
      circle with same | ⟨j, less, shorter⟩
    · exact .inr same
    · exact .inl (shorter.mono (Nat.lt_succ_iff.mp less))

theorem hasCircle (after : CircleShortens start c [] g)
    (same : g.straightHeads = start.straightHeads) : HasCircle g.Awaits c := by
  rcases after.circle same with circle | ⟨k, _, some, a, around⟩
  · exact circle
  · cases around with
    | nil => cases some
    | cons step => cases step.2

end CircleShortens

/-! Rounds. -/

namespace Editing

/-- A round, as far as the units are concerned that wait: a rule that is not one of them is passed
over, and one that is gets expanded. What holds of the grammar and the rules to come is kept. -/
theorem UnitSteps.invariant {I : List Rule → Grammar → Prop}
    (idle : ∀ rule rest g, (∀ x y, rule = Rule.unit x y → ¬ g.Awaits x y) →
      I (rule :: rest) g → I rest g)
    (expand : ∀ x y rest g, g.Awaits x y → I (Rule.unit x y :: rest) g →
      I rest (g.expanded x y))
    (steps : UnitSteps g aside rules last g') (settled : g.SettledAside aside)
    (initial : I rules g) : g'.SettledAside last ∧ I [] g' := by
  induction steps with
  | nil => exact ⟨settled, initial⟩
  | @cons g g' _ rule aside aside' rest _ step _ ih =>
    refine ih (settledAside_step settled step) ?_
    cases step with
    | @expanded y waiting member unit unsettled =>
      rw [Rule.eq_unit unit] at member unsettled initial ⊢
      exact expand rule.head y rest g ((awaits_iff member).mpr unsettled) initial
    | @setAside y waiting member unit here =>
      refine idle rule rest g (fun a b same awaits => ?_) initial
      subst same
      obtain rfl : b = y := by simpa [Rule.unit] using (Rule.unit?_eq_some.mp unit).2
      exact (awaits_iff member).mp awaits here
    | passed done =>
      refine idle rule rest g (fun a b same awaits => ?_) initial
      subst same
      have listed : Rule.unit a b ∈ aside := done rfl awaits.member
      exact (awaits_iff awaits.member).mp awaits (settled _ listed b rfl)

theorem UnitSteps.chainsWithin (steps : UnitSteps g aside g.rules last g')
    (settled : g.SettledAside aside) (chains : g.ChainsWithin (m + 1)) : g'.ChainsWithin m := by
  have initial : ChainsShorten m g.rules g := ⟨chains, fun _ _ _ _ _ => le_rfl⟩
  exact (steps.invariant (fun _ _ _ idle before => before.idle idle)
    (fun _ _ _ _ awaits before => before.expand awaits) settled initial).2.chainsWithin

/-- A round makes some head name itself, or shortens a circle. -/
theorem UnitSteps.circle {c : Nat} (steps : UnitSteps g aside g.rules last g')
    (settled : g.SettledAside aside) (circle : HasCircle g.Awaits (c + 1)) :
    g'.straightHeads.card < g.straightHeads.card ∨
      g'.straightHeads.card = g.straightHeads.card ∧ HasCircle g'.Awaits c := by
  have after : CircleShortens g c [] g' :=
    (steps.invariant (fun _ _ _ idle before => before.idle idle)
      (fun _ _ _ _ awaits before => before.expand awaits) settled (.initial circle)).2
  rcases after.straight.eq_or_ssubset with same | fewer
  · exact .inr ⟨congrArg _ same, after.hasCircle same⟩
  · exact .inl (Finset.card_lt_card fewer)

/-- With `size` heads, `k` rounds before the last are enough. As long as there is a circle, these
are as many as its length, and `size` more for each head that may come to name itself. -/
structure RoundsWithin (size k : Nat) (aside : List Rule) (g : Grammar) : Prop where
  settled : g.SettledAside aside
  heads : g.heads.length = size
  enough : g.ChainsWithin k ∨
    ∃ c, HasCircle g.Awaits c ∧ c + size * g.straightHeads.card ≤ k

theorem RoundsWithin.initial (g : Grammar) :
    RoundsWithin g.heads.length (g.heads.length * (g.heads.length + 1)) [] g := by
  have more : g.heads.length * (g.heads.length + 1) =
      g.heads.length + g.heads.length * g.heads.length := by ring
  refine ⟨by simp [SettledAside], rfl, g.chainsWithin_or_circle.imp (fun chains => ?_) ?_⟩
  · exact chains.mono (by omega)
  · intro circle
    have most := Nat.mul_le_mul_left g.heads.length g.card_straightHeads_le
    exact ⟨_, circle, by omega⟩

/-- Where no unit waits, a round settles. -/
theorem unitRound_of_chainsWithin (none : g.ChainsWithin 0) :
    ∃ last, (unitRound aside).Leaves g (.settled last) g := by
  have settled : ∀ rule ∈ g.rules, ∀ y, rule.unit? = some y → g.Settled rule y := by
    intro rule member y unit
    by_contra unsettled
    rw [Rule.eq_unit unit] at member unsettled
    exact absurd (none 1 _ _ (.cons ((awaits_iff member).mpr unsettled) .nil)) (by decide)
  obtain ⟨last, quiet, _, all⟩ : ∃ last, (g.rules.foldlM expandIfUnit aside).Quiet g last ∧
      (∀ rule ∈ aside, rule ∈ last) ∧ ∀ rule ∈ g.rules, rule.isUnit = true → rule ∈ last :=
    quiet_foldlM_of_settled (fun _ member => member) settled
  have still := quiet.grammar_eq (traced_foldlM fun _ _ _ => traced_expandIfUnit)
  refine ⟨last, leaves_unitRound.mpr ⟨last, leaves_foldlM_expandIfUnit.mp ⟨quiet.1, still⟩, ?_⟩⟩
  have listed : g.rules.any (fun rule => rule.isUnit && rule ∉ last) = false := by
    simpa using all
  rw [listed]
  rfl

theorem RoundsWithin.step {size k : Nat} (before : RoundsWithin size k aside g)
    (steps : UnitSteps g aside g.rules last g') (some : ¬ g.ChainsWithin 0) :
    ∃ j < k, RoundsWithin size j last g' := by
  have kept := steps.invariant (I := fun _ g => g.heads.length = size) (fun _ _ _ _ same => same)
    (fun _ _ _ _ awaits same => awaits.heads_expanded ▸ same) before.settled before.heads
  rcases before.enough with chains | ⟨c, circle, le⟩
  · have positive : k ≠ 0 := by
      rintro rfl
      exact some chains
    obtain ⟨m, rfl⟩ := Nat.exists_eq_succ_of_ne_zero positive
    exact ⟨m, by omega, kept.1, kept.2, .inl (steps.chainsWithin before.settled chains)⟩
  · have positive : c ≠ 0 := by
      obtain ⟨_, short, some, _⟩ := circle
      omega
    obtain ⟨c, rfl⟩ := Nat.exists_eq_succ_of_ne_zero positive
    rcases steps.circle before.settled circle with fewer | ⟨same, circle⟩
    · -- The next circle may be as long as there are heads, which one head less makes up for.
      have spare : size + size * g'.straightHeads.card ≤ size * g.straightHeads.card := by
        rw [Nat.add_comm, ← Nat.mul_succ]
        exact Nat.mul_le_mul_left size fewer
      refine ⟨size + size * g'.straightHeads.card, by omega, kept.1, kept.2, ?_⟩
      refine (kept.2 ▸ g'.chainsWithin_or_circle).imp (fun chains => ?_) fun circle => ?_
      · exact chains.mono (by omega)
      · exact ⟨size, circle, le_rfl⟩
    · refine ⟨c + size * g.straightHeads.card, by omega, kept.1, kept.2, .inr ⟨c, circle, ?_⟩⟩
      rw [same]

theorem lowers_unitRound (size : Nat) : Lowers unitRound (RoundsWithin size) := by
  intro k aside g before
  by_cases none : g.ChainsWithin 0
  · obtain ⟨last, left⟩ := unitRound_of_chainsWithin none
    exact ⟨.settled last, g, left, nofun⟩
  · obtain ⟨last, g', steps⟩ := exists_unitSteps g aside g.rules
    refine ⟨_, g', leaves_unitRound.mpr ⟨last, steps, rfl⟩, fun next told => ?_⟩
    split at told
    · obtain rfl := Progress.unsettled.inj told
      exact before.step steps none
    · cases told

end Editing

/-- The expansion of units succeeds on every grammar without shorthand, if the limit admits more
rounds than this number. -/
theorem Pass.units_converges (plain : g.hasShorthand = false) {limits : Limits} {rounds : Int}
    (whole : limits.maxIterations.whole? = some rounds)
    (enough : (g.heads.length * (g.heads.length + 1) : Nat) < rounds) :
    ((Pass.single .units).run limits g).outcome = .ok () := by
  obtain ⟨last, g', ended⟩ : ∃ last g',
      (settle (.single .units) limits.maxIterations unitRound []).Leaves g last g' :=
    (lowers_unitRound g.heads.length).settle (.initial g) whole enough
  have expanded : (expandUnits limits).Leaves g last g' :=
    leaves_perform.mpr ⟨fun _ => plain, ended⟩
  have left : (do let _ ← expandUnits limits : Editing Unit).Leaves g () g' :=
    leaves_bind.mpr ⟨last, g', expanded, leaves_pure.mpr ⟨rfl, rfl⟩⟩
  exact left.1

/-- Two circles that have `rope` and `cord` in common, a rule that stands in it twice and a name
without rules. -/
def Grammar.tangled : Grammar :=
  let rope : Name := ⟨"rope", by decide⟩
  let cord : Name := ⟨"cord", by decide⟩
  let yarn : Name := ⟨"yarn", by decide⟩
  .ofRules [⟨rope, .nonTerminal cord, []⟩, ⟨cord, .nonTerminal yarn, []⟩,
    ⟨yarn, .nonTerminal rope, []⟩, ⟨cord, .nonTerminal rope, []⟩, ⟨rope, .nonTerminal cord, []⟩,
    ⟨yarn, .nonTerminal ⟨"wool", by decide⟩, []⟩, ⟨cord, .terminal ⟨"a", none⟩, []⟩] none

theorem Pass.units_tangled : tangled.hasShorthand = false ∧
    (tangled.heads.length * (tangled.heads.length + 1) : Nat) < (13 : Int) ∧
      ((Pass.single .units).run (.ofCounts 13 1) tangled).outcome = .ok () := by
  have plain : tangled.hasShorthand = false := by decide
  have enough : (tangled.heads.length * (tangled.heads.length + 1) : Nat) < (13 : Int) := by decide
  exact ⟨plain, enough, Pass.units_converges plain rfl enough⟩

end Ebnf
