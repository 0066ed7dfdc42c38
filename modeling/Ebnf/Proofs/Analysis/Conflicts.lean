import Mathlib
import Ebnf.Proofs.Analysis.First

/-! Alternatives that one terminal ahead cannot tell apart. FIRST sets are exact, so two of them
overlap if and only if the bodies derive sentences that begin alike or derive the empty word both.
Alternatives are compared by place, since one of them may stand among the rules twice. -/
namespace Ebnf

open Grammar

variable {g : Grammar} {b : Beginnings} {head : Name} {rules : List Rule} {s t : Sentence} {i : Nat}

namespace Grammar

/-- Two sentences cannot be told apart by what comes first: some terminal opens both, or both can
vanish. -/
def Confusable (g : Grammar) (s t : Sentence) : Prop :=
  (∃ x, g.Opens s x ∧ g.Opens t x) ∨ g.Vanishes s ∧ g.Vanishes t

/-- The rule at a place cannot be told apart from the one at some other place. -/
def ConfusedAt (g : Grammar) (rules : List Rule) (i : Nat) : Prop :=
  ∃ j rule other, j ≠ i ∧ rules[i]? = some rule ∧ rules[j]? = some other ∧
    g.Confusable rule.body other.body

/-- A list of the places whose rules are confused with others, in order. -/
structure ListsConfused (g : Grammar) (rules : List Rule) (places : List Nat) : Prop where
  ordered : places.Pairwise (· < ·)
  exact : ∀ i, i ∈ places ↔ g.ConfusedAt rules i

theorem Confusable.symm (confusable : g.Confusable s t) : g.Confusable t s :=
  confusable.imp (Exists.imp fun _ => And.symm) And.symm

/-- No place is confused with another if and only if the rules are told apart in pairs. -/
theorem pairwise_iff_not_confusedAt :
    (rules.Pairwise fun rule other => ¬ g.Confusable rule.body other.body) ↔
      ∀ i, ¬ g.ConfusedAt rules i := by
  rw [List.pairwise_iff_getElem]
  constructor
  · rintro apart i ⟨j, rule, other, differ, here, there, confusable⟩
    obtain ⟨inside, rfl⟩ := List.getElem?_eq_some_iff.mp here
    obtain ⟨inside', rfl⟩ := List.getElem?_eq_some_iff.mp there
    rcases Nat.lt_or_gt_of_ne differ with before | after
    · exact apart j i inside' inside before confusable.symm
    · exact apart i j inside inside' after confusable
  · intro apart i j inside inside' before confusable
    exact apart i ⟨j, rules[i], rules[j], before.ne', List.getElem?_eq_getElem inside,
      List.getElem?_eq_getElem inside', confusable⟩

end Grammar

/-! What the analysis compares. -/

theorem FirstSet.overlaps_iff {first second : FirstSet} : first.overlaps second = true ↔
    (∃ x, x ∈ first.terminals ∧ x ∈ second.terminals) ∨
      first.containsEpsilon = true ∧ second.containsEpsilon = true := by
  simp [FirstSet.overlaps]

theorem Beginnings.overlaps_firstSet_iff {head' : Name} (found : g.beginnings = .ok b)
    (bare : s.hasShorthand = false) (bare' : t.hasShorthand = false) :
    (b.firstSet head s).overlaps (b.firstSet head' t) = true ↔ g.Confusable s t := by
  have opened {u : Sentence} {name : Name} {x : Terminal} (bare : u.hasShorthand = false) :
      x ∈ (b.firstSet name u).terminals ↔ g.Opens u x :=
    Terminal.mem_listing.trans (mem_ofSentence found bare)
  have empty {u : Sentence} {name : Name} :
      (b.firstSet name u).containsEpsilon = true ↔ g.Vanishes u :=
    vanishes_beginnings_iff found
  simp only [FirstSet.overlaps_iff, opened bare, opened bare', empty, Confusable]

/-- The elements that are chosen among those of a list with their places are found again at the
places chosen. -/
theorem map_fst_filter_zipIdx {α : Type} {xs : List α} {p : α × Nat → Bool} :
    (xs.zipIdx.filter p).map Prod.fst =
      ((xs.zipIdx.filter p).map Prod.snd).filterMap (xs[·]?) := by
  rw [List.filterMap_map, ← List.filterMap_eq_map]
  refine List.filterMap_congr fun entry chosen => ?_
  exact (List.mem_zipIdx_iff_getElem?.mp (List.mem_of_mem_filter chosen)).symm

namespace Grammar

/-- The alternatives that clash are those at the places that are confused with others. -/
theorem exists_places_clashing (found : g.beginnings = .ok b)
    (listed : ∀ rule ∈ rules, rule ∈ g.rules) :
    ∃ places, clashing b rules = places.filterMap (rules[·]?) ∧ g.ListsConfused rules places := by
  have bare {i : Nat} {rule : Rule} (here : rules[i]? = some rule) :
      rule.body.hasShorthand = false :=
    plain_of_mem (beginnings_eq_ok.mp found).1 (listed rule (List.mem_of_getElem? here))
  refine ⟨_, map_fst_filter_zipIdx, ?_, fun i => ?_⟩
  · have places : (rules.zipIdx.map Prod.snd).Pairwise (· < ·) := by
      rw [List.zipIdx_map_snd]
      exact List.pairwise_lt_range'
    exact places.sublist (List.filter_sublist.map _)
  · simp only [List.mem_map, List.mem_filter, List.any_eq_true, List.mem_eraseIdx_iff_getElem?]
    constructor
    · rintro ⟨⟨rule, _⟩, ⟨chosen, other, ⟨j, differ, there⟩, overlaps⟩, rfl⟩
      have here := List.mem_zipIdx_iff_getElem?.mp chosen
      exact ⟨j, rule, other, differ, here, there,
        (Beginnings.overlaps_firstSet_iff found (bare here) (bare there)).mp overlaps⟩
    · rintro ⟨j, rule, other, differ, here, there, confusable⟩
      refine ⟨(rule, i), ⟨List.mem_zipIdx_iff_getElem?.mpr here, other, ⟨j, differ, there⟩, ?_⟩,
        rfl⟩
      exact (Beginnings.overlaps_firstSet_iff found (bare here) (bare there)).mpr confusable

theorem ConfusedAt.exists_mem (confused : g.ConfusedAt rules i) :
    ∃ rule, rules[i]? = some rule := by
  obtain ⟨_, rule, _, _, here, _⟩ := confused
  exact ⟨rule, here⟩

theorem ConfusedAt.mem_heads (confused : g.ConfusedAt (g.rulesOf head) i) : head ∈ g.heads := by
  obtain ⟨rule, here⟩ := confused.exists_mem
  exact rulesOf_ne_nil.mp (List.ne_nil_of_mem (List.mem_of_getElem? here))

theorem firstSetConflicts_of_beginnings (found : g.beginnings = .ok b) :
    g.firstSetConflicts = .ok ((g.heads.filter fun head => clashing b (g.rulesOf head) ≠ []).map
      fun head => g.subset (clashing b (g.rulesOf head))) := by
  have listed : (g.groups.map fun group => clashing b group.2) =
      g.heads.map fun head => clashing b (g.rulesOf head) := List.map_map
  simp only [firstSetConflicts, found, bind, Except.bind, pure, Except.pure, listed]
  rw [List.filterMap_map, ← List.filterMap_eq_map, List.filterMap_filter]
  congr 2
  funext head
  by_cases none : clashing b (g.rulesOf head) = [] <;> simp [none]

/-- The conflicts of a grammar without shorthand are listed by head, in order of first appearance,
for the heads that have any. For each of them stands the grammar of the alternatives that clash, in
order and as often as they occur: those that cannot be told apart from the alternative at another
place, by the terminals that open what the bodies derive or because both derive the empty word. No
conflict is listed if and only if the alternatives of every head are told apart in pairs. -/
theorem firstSetConflicts_exact (plain : g.hasShorthand = false) :
    ∃ (heads : List Name) (places : Name → List Nat),
      g.firstSetConflicts = .ok (heads.map fun head =>
        g.subset ((places head).filterMap ((g.rulesOf head)[·]?))) ∧
      (heads.Sublist g.heads ∧
        ∀ head, head ∈ heads ↔ ∃ i, g.ConfusedAt (g.rulesOf head) i) ∧
      (∀ head, g.ListsConfused (g.rulesOf head) (places head)) ∧
      (heads = [] ↔ ∀ head, (g.rulesOf head).Pairwise fun rule other =>
        ¬ g.Confusable rule.body other.body) := by
  obtain ⟨b, found⟩ : ∃ b, g.beginnings = .ok b := ⟨_, beginnings_eq_ok.mpr ⟨plain, rfl⟩⟩
  have each (head : Name) : ∃ places,
      clashing b (g.rulesOf head) = places.filterMap ((g.rulesOf head)[·]?) ∧
        g.ListsConfused (g.rulesOf head) places :=
    exists_places_clashing found fun rule listed => (mem_rulesOf.mp listed).1
  choose places chosen confused using each
  have clash_iff (head : Name) :
      clashing b (g.rulesOf head) ≠ [] ↔ ∃ i, g.ConfusedAt (g.rulesOf head) i := by
    simp only [chosen, ne_eq, List.filterMap_eq_nil_iff, not_forall, (confused _).exact]
    refine exists_congr fun i => exists_prop.trans (and_iff_left_of_imp fun clash => ?_)
    obtain ⟨rule, here⟩ := clash.exists_mem
    simp [here]
  have mem_iff (head : Name) :
      head ∈ g.heads.filter (fun head => clashing b (g.rulesOf head) ≠ []) ↔
        ∃ i, g.ConfusedAt (g.rulesOf head) i := by
    rw [List.mem_filter, decide_eq_true_eq, clash_iff]
    exact and_iff_right_of_imp fun clash => clash.elim fun _ => ConfusedAt.mem_heads
  refine ⟨_, places, ?_, ⟨List.filter_sublist, mem_iff⟩, confused, ?_⟩
  · rw [firstSetConflicts_of_beginnings found]
    simp only [chosen]
  · simp only [List.eq_nil_iff_forall_not_mem, mem_iff, not_exists, pairwise_iff_not_confusedAt]

/-- `soup → broth`, `salt → x`, `soup → ε`, `salt → y`, `broth → ε` and once more `salt → x`. -/
def pantry : Grammar :=
  let soup : Name := ⟨"soup", by decide⟩
  let salt (token : String) : Rule := ⟨⟨"salt", by decide⟩, .terminal ⟨token, none⟩, []⟩
  .ofRules [⟨soup, .nonTerminal ⟨"broth", by decide⟩, []⟩, salt "x", ⟨soup, .epsilon, []⟩,
    salt "y", ⟨⟨"broth", by decide⟩, .epsilon, []⟩, salt "x"] none

/-- `soup` is empty in two ways. `salt` has one alternative at its first and its last place, and
what stands between them clashes with neither. -/
theorem firstSetConflicts_pantry :
    let soup : Name := ⟨"soup", by decide⟩
    let salt : Name := ⟨"salt", by decide⟩
    let thin : Rule := ⟨soup, .nonTerminal ⟨"broth", by decide⟩, []⟩
    let skipped : Rule := ⟨soup, .epsilon, []⟩
    let again : Rule := ⟨salt, .terminal ⟨"x", none⟩, []⟩
    pantry.hasShorthand = false ∧
      pantry.firstSetConflicts = .ok [pantry.subset [thin, skipped], pantry.subset [again, again]] ∧
      ∃ (heads : List Name) (places : Name → List Nat),
        pantry.firstSetConflicts = .ok (heads.map fun head =>
          pantry.subset ((places head).filterMap ((pantry.rulesOf head)[·]?))) ∧
        soup ∈ heads ∧ 0 ∈ places salt ∧ 1 ∉ places salt := by
  intro soup salt thin skipped again
  have plain : pantry.hasShorthand = false := by decide
  have soups : pantry.rulesOf soup = [thin, skipped] := by decide +kernel
  have salts : pantry.rulesOf salt = [again, ⟨salt, .terminal ⟨"y", none⟩, []⟩, again] := by
    decide +kernel
  have broth : (⟨⟨"broth", by decide⟩, .epsilon, []⟩ : Rule) ∈ pantry.rules := by decide +kernel
  have empty : pantry.ConfusedAt (pantry.rulesOf soup) 0 :=
    ⟨1, thin, skipped, by decide, by rw [soups]; rfl, by rw [soups]; rfl,
      .inr ⟨.of_body broth vanishes_epsilon, vanishes_epsilon⟩⟩
  have twice : pantry.ConfusedAt (pantry.rulesOf salt) 0 :=
    ⟨2, again, again, by decide, by rw [salts]; rfl, by rw [salts]; rfl,
      .inl ⟨_, opens_terminal.mpr rfl, opens_terminal.mpr rfl⟩⟩
  have apart : ¬ pantry.ConfusedAt (pantry.rulesOf salt) 1 := by
    rintro ⟨j, rule, other, differ, here, there, confusable⟩
    rw [salts] at here there
    obtain rfl : ⟨salt, .terminal ⟨"y", none⟩, []⟩ = rule := Option.some.inj here
    obtain rfl : again = other := by
      rcases j with _ | _ | _ | j
      · exact Option.some.inj there
      · exact absurd rfl differ
      · exact Option.some.inj there
      · cases there
    rcases confusable with ⟨x, opened, opened'⟩ | ⟨gone, _⟩
    · have same := (opens_terminal.mp opened).trans (opens_terminal.mp opened').symm
      exact absurd same (by decide)
    · exact not_vanishes_terminal gone
  obtain ⟨heads, places, found, ⟨_, clash⟩, confused, _⟩ := firstSetConflicts_exact plain
  exact ⟨plain, by cbv, heads, places, found, (clash soup).mpr ⟨0, empty⟩,
    ((confused salt).exact 0).mpr twice, fun listed => apart (((confused salt).exact 1).mp listed)⟩

end Grammar
end Ebnf
