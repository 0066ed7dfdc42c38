import Mathlib
import Ebnf.Proofs.Editing.Replay
import Ebnf.Proofs.Pass.Traces

/-! The order of the alternatives of a head is their priority. A change takes away only rules that
its records name, and what it leaves of a head stays in order and as often as it was there, though
all rules of a head may move together to where the first of them was. -/
namespace Ebnf

section Lists

variable {α : Type} [DecidableEq α] {a : α} {bs xs ys removed : List α} {p : α → Bool}

/-- The chosen elements stay where one that is not chosen gives way to others. -/
theorem filter_sublist_replaceFirst (old : p a = false) :
    (xs.filter p).Sublist (replaceFirst a bs xs) := by
  induction xs with
  | nil => exact .slnil
  | cons x xs ih =>
    rw [replaceFirst]
    split
    · next same =>
      rw [List.filter_cons_of_neg (by simp [same, old])]
      exact List.filter_sublist.trans (List.sublist_append_right bs xs)
    · by_cases chosen : p x = true
      · rw [List.filter_cons_of_pos chosen]
        exact ih.cons_cons x
      · rw [List.filter_cons_of_neg chosen]
        exact ih.cons x

theorem filter_sublist_foldl_erase (old : ∀ a ∈ removed, p a = false)
    (kept : (xs.filter p).Sublist ys) : (xs.filter p).Sublist (removed.foldl List.erase ys) := by
  have still : (xs.filter p).Sublist ((removed.foldl List.erase ys).filter p) := by
    rw [filter_foldl_erase old]
    simpa [List.filter_filter] using kept.filter p
  exact still.trans List.filter_sublist

/-- Chosen elements that occur once are the first of their kind. -/
theorem filter_sublist_eraseDups (once : ∀ a, p a = true → xs.count a ≤ 1) :
    (xs.filter p).Sublist xs.eraseDups := by
  induction xs with
  | nil => exact .slnil
  | cons x xs ih =>
    have later : (xs.filter p).Sublist xs.eraseDups := ih fun a chosen =>
      ((List.sublist_cons_self x xs).count_le a).trans (once a chosen)
    have apart : ∀ y ∈ xs.filter p, decide (y ≠ x) = true := by
      intro y member
      obtain ⟨again, chosen⟩ := List.mem_filter.mp member
      rw [decide_eq_true_eq]
      rintro rfl
      have twice := once y chosen
      have occurs := List.count_pos_iff.mpr again
      rw [List.count_cons_self] at twice
      omega
    have kept : (xs.filter p).Sublist (xs.eraseDups.filter (· ≠ x)) := by
      simpa only [List.filter_eq_self.mpr apart] using later.filter (· ≠ x)
    rw [eraseDups_cons_filter]
    by_cases chosen : p x = true
    · rw [List.filter_cons_of_pos chosen]
      exact kept.cons_cons x
    · rw [List.filter_cons_of_neg chosen]
      exact kept.cons x

theorem count_le_one_of_notMem_repeatedAfter (single : a ∉ repeatedAfter [] xs) :
    xs.count a ≤ 1 := by
  rw [← (Grammar.repeatedAfter_perm [] xs).count_eq a, List.count_append,
    List.count_eq_zero.mpr single, Nat.zero_add]
  exact List.nodup_iff_count_le_one.mp ((nodup_eraseDups xs).filter _) a

omit [DecidableEq α] in
theorem filter_sublist_filter {q : α → Bool} (weaker : ∀ x ∈ xs, p x = true → q x = true) :
    (xs.filter p).Sublist (xs.filter q) := by
  have both : (xs.filter q).filter p = xs.filter p := by
    rw [List.filter_filter]
    refine List.filter_congr fun x member => ?_
    cases chosen : p x with
    | false => rfl
    | true => simp [weaker x member chosen]
  exact both ▸ List.filter_sublist

end Lists

namespace Grammar

variable {g g' : Grammar} {reported later rules : List Rule} {rule : Rule} {head root : Name}

/-- The alternatives of a head that are not reported. -/
def unreported (g : Grammar) (reported : List Rule) (head : Name) : List Rule :=
  (g.rulesOf head).filter (· ∉ reported)

theorem unreported_append :
    g.unreported (reported ++ later) head = (g.unreported reported head).filter (· ∉ later) := by
  rw [unreported, unreported, List.filter_filter]
  refine List.filter_congr fun rule _ => ?_
  rw [← Bool.decide_and, decide_eq_decide, List.mem_append, not_or, and_comm]

theorem unreported_eq_self (untouched : ∀ rule ∈ g.rulesOf head, rule ∉ reported) :
    g.unreported reported head = g.rulesOf head :=
  List.filter_eq_self.mpr fun rule listed => decide_eq_true (untouched rule listed)

theorem unreported_eq_nil (listed : ∀ rule ∈ g.rulesOf head, rule ∈ reported) :
    g.unreported reported head = [] :=
  List.filter_eq_nil_iff.mpr fun rule member => by simpa using listed rule member

/-- Where the order of all rules is kept, so is that of each head. -/
theorem unreported_sublist (kept : (g.rules.filter (· ∉ reported)).Sublist g'.rules) :
    (g.unreported reported head).Sublist (g'.rulesOf head) := by
  unfold unreported rulesOf
  rw [List.filter_comm]
  exact kept.filter _

theorem unreported_replaced (listed : rule ∈ reported) :
    (g.unreported reported head).Sublist ((g.replaced rule rules).rulesOf head) :=
  unreported_sublist (filter_sublist_replaceFirst (by simpa using listed))

theorem unreported_factored {group : LeadGroup} {fresh : Name}
    (listed : ∀ rule ∈ group.rules, rule ∈ reported) :
    (g.unreported reported head).Sublist ((g.factored group fresh).rulesOf head) := by
  refine unreported_sublist ?_
  unfold factored
  cases parts : group.rules with
  | nil => exact List.filter_sublist
  | cons first others =>
    rw [parts] at listed
    refine filter_sublist_foldl_erase (fun rule member => ?_) (filter_sublist_replaceFirst ?_)
    · simpa using listed rule (List.mem_cons_of_mem _ member)
    · simpa using listed first List.mem_cons_self

theorem unreported_retain {keep : Name → Bool} (listed : ∀ rule ∈ g.dropped keep, rule ∈ reported) :
    (g.unreported reported head).Sublist ((g.retain keep).rulesOf head) := by
  refine unreported_sublist (filter_sublist_filter fun rule member spared => ?_)
  by_contra gone
  exact of_decide_eq_true spared (listed rule (List.mem_filter.mpr ⟨member, by simpa using gone⟩))

theorem unreported_eraseDups (listed : ∀ rule ∈ repeatedAfter [] g.rules, rule ∈ reported) :
    (g.unreported reported head).Sublist
      (({ g with rules := g.rules.eraseDups } : Grammar).rulesOf head) := by
  refine unreported_sublist (filter_sublist_eraseDups fun rule spared => ?_)
  exact count_le_one_of_notMem_repeatedAfter fun again =>
    of_decide_eq_true spared (listed rule again)

/-- The rules of a head come to stand together, and all other rules stay around them. -/
theorem sublists_withRulesOf (g : Grammar) (root : Name) (rules : List Rule) :
    rules.Sublist (g.withRulesOf root rules).rules ∧
      (g.rules.filter (·.head ≠ root)).Sublist (g.withRulesOf root rules).rules := by
  let others := g.rules.filter (·.head ≠ root)
  let position := g.rules.findIdx (·.head = root)
  change rules.Sublist (others.take position ++ rules ++ others.drop position) ∧
    others.Sublist (others.take position ++ rules ++ others.drop position)
  refine ⟨(List.sublist_append_right _ _).trans (List.sublist_append_left _ _), ?_⟩
  conv_lhs => rw [← List.take_append_drop position others]
  exact (List.sublist_append_left _ _).append_right _

/-- What is spared of a head has to be among its new rules, in the same order. -/
theorem unreported_withRulesOf (spared : (g.unreported reported root).Sublist rules) :
    (g.unreported reported head).Sublist ((g.withRulesOf root rules).rulesOf head) := by
  obtain ⟨together, around⟩ := sublists_withRulesOf g root rules
  by_cases same : head = root
  · subst same
    have own : (g.unreported reported head).filter (·.head = head) = g.unreported reported head :=
      List.filter_eq_self.mpr fun rule member => by
        simpa using (mem_rulesOf.mp (List.mem_filter.mp member).1).2
    rw [← own]
    exact (spared.trans together).filter _
  · have apart : (g.rules.filter (·.head ≠ root)).filter (·.head = head) = g.rulesOf head := by
      rw [List.filter_filter]
      refine List.filter_congr fun rule _ => ?_
      by_cases here : rule.head = head
      · simp [here, same]
      · simp [here]
    exact List.filter_sublist.trans (apart ▸ around.filter _)

theorem mem_rulesOf_cases (listed : rule ∈ g.rulesOf root) : rule ∈ g.loopsOf root ∨
    rule ∈ (g.directRecursion root).base ∨ rule ∈ (g.directRecursion root).recursive := by
  obtain ⟨member, headed⟩ := mem_rulesOf.mp listed
  have parts := (rules_perm_directRecursion g root).mem_iff.mp member
  simpa [headed] using parts

end Grammar

open Grammar Event

variable {kind : Transformation} {among : Transformation → Prop} {g g' : Grammar}
  {events : List Event} {head : Name}

/-- The rules that the records among events name. -/
def reportedBy (events : List Event) : List Rule :=
  (events.filterMap record?).map Record.replaced

/-- What a change does not report of a head it leaves in order. -/
theorem Change.unreported_sublist (change : Change kind g events g') :
    (g.unreported (reportedBy events) head).Sublist (g'.rulesOf head) := by
  cases change with
  | expansion => exact unreported_replaced (by simp [reportedBy])
  | unit => exact unreported_replaced (by simp [reportedBy])
  | substitution => exact unreported_replaced (by simp [reportedBy])
  | factoring => exact unreported_factored (by simp [reportedBy])
  | removal => exact unreported_retain (by simp [reportedBy])
  | deduplication => exact unreported_eraseDups (by simp [reportedBy])
  | augmentation =>
    exact Grammar.unreported_sublist (List.filter_sublist.trans (List.sublist_cons_self _ _))
  | @loops _ _ root kinds based recursive nothing =>
    -- only rules that say nothing are taken out, so what is spared is the rest of the head
    refine unreported_withRulesOf (filter_sublist_filter fun rule listed spared => ?_)
    have spared : rule ∉ g.loopsOf root := by simpa [reportedBy] using spared
    have base := (mem_rulesOf_cases listed).resolve_left spared
    rw [nothing] at base
    simpa using (mem_baseRulesOf.mp (base.resolve_right List.not_mem_nil)).2
  | @direct _ _ root kinds based recursive =>
    -- every rule of the head is reported, so nothing of it is spared
    obtain ⟨named, _⟩ := (g.directRecursion root).replacements_split (g.continuation root) recursive
    refine unreported_withRulesOf ?_
    rw [unreported_eq_nil]
    · exact List.nil_sublist _
    · intro rule listed
      have parts := mem_rulesOf_cases listed
      rw [← List.mem_append, ← named] at parts
      simpa [reportedBy, filterMap_record?_map] using parts

/-- What a path does not report of a head it leaves in order. -/
theorem Path.unreported_sublist (path : Path among g events g') :
    (g.unreported (reportedBy events) head).Sublist (g'.rulesOf head) := by
  induction path with
  | refl => exact List.filter_sublist
  | remark _ _ ih => exact ih
  | @next _ _ first _ rest _ _ change _ ih =>
    have split : reportedBy (first ++ rest) = reportedBy first ++ reportedBy rest := by
      simp [reportedBy]
    rw [split, unreported_append]
    exact (change.unreported_sublist.filter _).trans ih

/-- However a pass ends, the alternatives of a head that none of its records names are still there,
as often as before and in the same order. If the records name none of them, all are. -/
theorem Pass.run_keeps_order (pass : Pass) (limits : Limits) (g : Grammar) (head : Name) :
    let r := pass.run limits g
    let reported := r.records.map Record.replaced
    ((g.rulesOf head).filter (· ∉ reported)).Sublist (r.grammar.rulesOf head) ∧
      ((∀ rule ∈ g.rulesOf head, rule ∉ reported) →
        (g.rulesOf head).Sublist (r.grammar.rulesOf head)) := by
  intro r reported
  have kept : (g.unreported reported head).Sublist (r.grammar.rulesOf head) :=
    (pass.run_path limits g).unreported_sublist
  exact ⟨kept, fun untouched => unreported_eq_self untouched ▸ kept⟩

/-- `line → x word line`, `line → word` and `line → y`, with `word → a` and `word → b`. -/
def Grammar.wordLines : Grammar :=
  let line : Name := ⟨"line", by decide⟩
  let word : Name := ⟨"word", by decide⟩
  let token (text : String) : Symbol := .terminal ⟨text, none⟩
  .ofRules [⟨line, token "x", [.nonTerminal word, .nonTerminal line]⟩,
    ⟨line, .nonTerminal word, []⟩, ⟨line, token "y", []⟩, ⟨word, token "a", []⟩,
    ⟨word, token "b", []⟩] none

/-- One alternative of `line` gives way to others, and those of `word` are left alone. -/
theorem Pass.normalize_wordLines :
    let r := Pass.normalize.run (.ofCounts 4 4) wordLines
    let reported := r.records.map Record.replaced
    (r.outcome = .ok () ∧
        reported = [⟨⟨"line", by decide⟩, .nonTerminal ⟨"word", by decide⟩, []⟩]) ∧
      ((wordLines.rulesOf ⟨"line", by decide⟩).filter (· ∉ reported)).Sublist
        (r.grammar.rulesOf ⟨"line", by decide⟩) ∧
      (wordLines.rulesOf ⟨"word", by decide⟩).Sublist (r.grammar.rulesOf ⟨"word", by decide⟩) := by
  have ended : (Pass.normalize.run (.ofCounts 4 4) wordLines).outcome = .ok () := by cbv
  have named : (Pass.normalize.run (.ofCounts 4 4) wordLines).records.map Record.replaced =
      [⟨⟨"line", by decide⟩, .nonTerminal ⟨"word", by decide⟩, []⟩] := by cbv
  intro r reported
  refine ⟨⟨ended, named⟩, (Pass.run_keeps_order .normalize _ wordLines _).1,
    (Pass.run_keeps_order .normalize _ wordLines _).2 ?_⟩
  rw [named]
  decide

end Ebnf
