import Ebnf.Analysis.LeftRecursion
import Ebnf.Grammar.Edit
import Ebnf.Proofs.Names

/-! What a grammar says of its rules, heads and names, and what its edits do to them. -/
namespace Ebnf

section Lists

variable {α : Type} [DecidableEq α] {a x : α} {bs xs ys : List α}

theorem replaceFirst_perm (member : a ∈ xs) : (replaceFirst a bs xs).Perm (bs ++ xs.erase a) := by
  induction xs with
  | nil => cases member
  | cons y rest ih =>
    rw [replaceFirst]
    split
    · next same => simp [same]
    · next other =>
      rw [List.erase_cons_tail (by simpa using other)]
      have later : a ∈ rest := (List.mem_cons.mp member).resolve_left (Ne.symm other)
      exact ((ih later).cons y).trans List.perm_middle.symm

theorem mem_replaceFirst (member : a ∈ xs) :
    x ∈ replaceFirst a bs xs ↔ x ∈ bs ∨ x ∈ xs.erase a := by
  rw [(replaceFirst_perm member).mem_iff, List.mem_append]

theorem mem_of_mem_replaceFirst (h : x ∈ replaceFirst a bs xs) : x ∈ bs ∨ x ∈ xs := by
  induction xs with
  | nil => cases h
  | cons y rest ih =>
    rw [replaceFirst] at h
    split at h
    · exact (List.mem_append.mp h).imp_right (List.mem_cons_of_mem y)
    · rcases List.mem_cons.mp h with rfl | later
      · exact .inr List.mem_cons_self
      · exact (ih later).imp_right (List.mem_cons_of_mem y)

/-- Fewer elements are chosen when a chosen one gives way to others that are not. -/
theorem countP_replaceFirst_lt {p : α → Bool} (member : a ∈ xs) (chosen : p a = true)
    (new : ∀ b ∈ bs, p b = false) : (replaceFirst a bs xs).countP p < xs.countP p := by
  have none : bs.countP p = 0 := List.countP_eq_zero.mpr fun b listed => by simp [new b listed]
  rw [(replaceFirst_perm member).countP_eq, (List.perm_cons_erase member).countP_eq,
    List.countP_append, none, List.countP_cons_of_pos chosen]
  omega

theorem replaceFirst_append (missing : a ∉ xs) (ys : List α) :
    replaceFirst a bs (xs ++ a :: ys) = xs ++ (bs ++ ys) := by
  induction xs with
  | nil => rw [List.nil_append, replaceFirst, if_pos rfl]; rfl
  | cons x xs ih =>
    have other : x ≠ a := fun same => missing (same ▸ List.mem_cons_self)
    rw [List.cons_append, replaceFirst, if_neg other,
      ih fun later => missing (List.mem_cons_of_mem _ later)]
    rfl

theorem replaceFirst_of_notMem (missing : a ∉ xs) : replaceFirst a bs xs = xs := by
  induction xs with
  | nil => rfl
  | cons y rest ih =>
    have other : y ≠ a := fun same => missing (same ▸ List.mem_cons_self)
    rw [replaceFirst, if_neg other, ih fun later => missing (List.mem_cons_of_mem _ later)]

theorem filter_replaceFirst {p : α → Bool} (old : p a = false) (new : ∀ b ∈ bs, p b = false) :
    (replaceFirst a bs xs).filter p = xs.filter p := by
  induction xs with
  | nil => rfl
  | cons y rest ih =>
    rw [replaceFirst]
    split
    · next same =>
      subst same
      rw [List.filter_append, List.filter_eq_nil_iff.mpr (by simpa using new)]
      simp [old]
    · simp only [List.filter_cons, ih]

theorem filter_erase {p : α → Bool} (old : p a = false) : (xs.erase a).filter p = xs.filter p := by
  rw [← List.erase_filter, List.erase_of_not_mem]
  simp [old]

theorem filter_foldl_erase {p : α → Bool} {removed : List α} (old : ∀ a ∈ removed, p a = false) :
    (removed.foldl List.erase xs).filter p = xs.filter p := by
  induction removed generalizing xs with
  | nil => rfl
  | cons a removed ih =>
    rw [List.foldl_cons, ih fun a later => old a (List.mem_cons_of_mem _ later),
      filter_erase (old a List.mem_cons_self)]

omit [DecidableEq α] in
/-- A filter that does not tell elements apart that count as the same can come first or last. -/
theorem eraseDupsBy_filter {same : α → α → Bool} {p : α → Bool}
    (alike : ∀ x y, same x y = true → p x = p y) (xs : List α) :
    (xs.filter p).eraseDupsBy same = (xs.eraseDupsBy same).filter p :=
  match xs with
  | [] => rfl
  | y :: rest => by
    -- What counts as `y` goes from the rest first, so the recursion is on the length.
    have others := eraseDupsBy_filter alike (rest.filter fun z => same z y = false)
    rw [List.filter_filter] at others
    by_cases kept : p y = true
    · rw [List.filter_cons_of_pos kept, List.eraseDupsBy_cons, List.eraseDupsBy_cons,
        List.filter_cons_of_pos kept, ← others, List.filter_filter]
      simp only [Bool.and_comm]
    · rw [List.filter_cons_of_neg kept, List.eraseDupsBy_cons, List.filter_cons_of_neg kept,
        ← others]
      congr 1
      apply List.filter_congr
      intro z _
      by_cases again : same z y = true
      · simp [alike z y again, kept]
      · simp [again]
termination_by xs.length
decreasing_by exact Nat.lt_succ_of_le (List.length_filter_le _ _)

theorem eraseDups_filter (p : α → Bool) (xs : List α) :
    (xs.filter p).eraseDups = xs.eraseDups.filter p :=
  eraseDupsBy_filter (fun _ _ same => congrArg p (eq_of_beq same)) xs

/-- The first element stays, and the later ones that equal it go. -/
theorem eraseDups_cons_filter (x : α) (xs : List α) :
    (x :: xs).eraseDups = x :: xs.eraseDups.filter (· ≠ x) := by
  rw [List.eraseDups_cons, eraseDups_filter]
  congr 1
  apply List.filter_congr
  intro y _
  by_cases same : y = x
  · simp [same]
  · simp [same]

theorem nodup_eraseDups (xs : List α) : xs.eraseDups.Nodup := by
  induction xs with
  | nil => exact .nil
  | cons y rest ih =>
    rw [eraseDups_cons_filter, List.nodup_cons]
    exact ⟨by simp, ih.filter _⟩

theorem eraseDups_eq_self (apart : xs.Nodup) : xs.eraseDups = xs := by
  induction xs with
  | nil => rfl
  | cons y rest ih =>
    obtain ⟨new, apart⟩ := List.nodup_cons.mp apart
    rw [eraseDups_cons_filter, ih apart, List.filter_eq_self.mpr]
    intro z later
    simpa using fun same : z = y => new (same ▸ later)

/-- Behind the same elements, lists that count alike still do. -/
theorem eraseDups_append_congr (alike : xs.eraseDups = ys.eraseDups) (before : List α) :
    (before ++ xs).eraseDups = (before ++ ys).eraseDups := by
  simp only [List.eraseDups_append, List.removeAll, eraseDups_filter, alike]

/-- Elements that are all the same count once. -/
theorem eraseDups_repeated (some : bs ≠ []) (same : ∀ b ∈ bs, b = a) :
    (bs ++ xs).eraseDups = (a :: xs).eraseDups := by
  induction bs with
  | nil => exact absurd rfl some
  | cons b bs ih =>
    obtain rfl := same b List.mem_cons_self
    cases bs with
    | nil => rfl
    | cons c bs =>
      have rest := ih (List.cons_ne_nil c bs) fun x later => same x (List.mem_cons_of_mem _ later)
      rw [List.cons_append, eraseDups_cons_filter, rest, eraseDups_cons_filter]
      simp [List.filter_filter]

/-- The elements are in order of first appearance. -/
theorem pairwise_idxOf_eraseDups (xs : List α) :
    xs.eraseDups.Pairwise fun a b => xs.idxOf a < xs.idxOf b := by
  induction xs with
  | nil => exact .nil
  | cons y rest ih =>
    have new {z : α} (later : z ∈ rest.eraseDups.filter (· ≠ y)) :
        (y :: rest).idxOf z = rest.idxOf z + 1 := by
      have other : z ≠ y := by simpa using (List.mem_filter.mp later).2
      rw [List.idxOf_cons, beq_false_of_ne other.symm, cond_false]
    rw [eraseDups_cons_filter, List.pairwise_cons]
    constructor
    · intro z later
      simp [new later]
    · refine (ih.filter _).imp_of_mem fun left right before => ?_
      rw [new left, new right]
      exact Nat.succ_lt_succ before

omit [DecidableEq α] in
theorem length_filter_le_one_iff {p : α → Bool} :
    (xs.filter p).length ≤ 1 ↔ xs.Pairwise fun a b => ¬ (p a = true ∧ p b = true) := by
  induction xs with
  | nil => simp
  | cons y rest ih =>
    rw [List.pairwise_cons]
    by_cases kept : p y = true
    · have none : (rest.filter p).length ≤ 0 ↔ ∀ z ∈ rest, ¬ (p y = true ∧ p z = true) := by
        rw [Nat.le_zero, List.length_eq_zero_iff, List.filter_eq_nil_iff]
        simp [kept]
      rw [List.filter_cons_of_pos kept, List.length_cons, ← Nat.zero_add 1,
        Nat.add_le_add_iff_right, none]
      refine ⟨fun alone => ⟨alone, ?_⟩, And.left⟩
      exact ih.mp (Nat.le_succ_of_le (none.mpr alone))
    · rw [List.filter_cons_of_neg kept, ih]
      exact ⟨fun apart => ⟨fun z _ both => kept both.1, apart⟩, And.right⟩

end Lists

section Results

variable {α ε δ : Type} {f : ε → δ} {a : α} {e : ε} {x : Except ε α}

theorem mapError_ok : (Except.ok a : Except ε α).mapError f = .ok a := rfl

theorem mapError_error : (Except.error e : Except ε α).mapError f = .error (f e) := rfl

theorem mapError_eq_ok : x.mapError f = .ok a ↔ x = .ok a := by
  cases x <;> simp [mapError_ok, mapError_error]

end Results

namespace Grammar

variable {g : Grammar} {rule : Rule} {name : Name}

@[simp] theorem mem_rulesOf : rule ∈ g.rulesOf name ↔ rule ∈ g.rules ∧ rule.head = name := by
  simp [rulesOf]

theorem requirePlain_eq_ok : g.requirePlain = .ok () ↔ g.hasShorthand = false := by
  simp [requirePlain]

theorem plain_of_mem (plain : g.hasShorthand = false) (member : rule ∈ g.rules) :
    rule.body.hasShorthand = false :=
  Bool.eq_false_iff.mpr fun shorthand =>
    Bool.eq_false_iff.mp plain (List.any_eq_true.mpr ⟨rule, member, shorthand⟩)

theorem mem_heads : name ∈ g.heads ↔ ∃ rule ∈ g.rules, rule.head = name := by
  simp [heads, List.mem_eraseDups]

theorem head_mem_heads (member : rule ∈ g.rules) : rule.head ∈ g.heads :=
  mem_heads.mpr ⟨rule, member, rfl⟩

theorem nodup_heads : g.heads.Nodup := nodup_eraseDups _

/-- The names are those that head a rule, each once, in order of first appearance. -/
def ListsHeads (g : Grammar) (names : List Name) : Prop :=
  (∀ name, name ∈ names ↔ ∃ rule ∈ g.rules, rule.head = name) ∧
    names.Pairwise fun m n => (g.rules.map Rule.head).idxOf m < (g.rules.map Rule.head).idxOf n

theorem listsHeads_heads (g : Grammar) : g.ListsHeads g.heads :=
  ⟨fun _ => mem_heads, pairwise_idxOf_eraseDups _⟩

theorem mem_baseRulesOf : rule ∈ g.baseRulesOf name ↔
    (rule ∈ g.rules ∧ rule.head = name) ∧ rule.isLeftRecursive = false := by
  simp [baseRulesOf]

theorem baseRulesOf_ne_nil (member : rule ∈ g.rules) (same : rule.head = name)
    (other : rule.isLeftRecursive = false) : g.baseRulesOf name ≠ [] :=
  List.ne_nil_of_mem (mem_baseRulesOf.mpr ⟨⟨member, same⟩, other⟩)

theorem mem_leftRecursiveRulesOf : rule ∈ g.leftRecursiveRulesOf name ↔
    (rule ∈ g.rules ∧ rule.head = name) ∧ rule.isLeftRecursive = true := by
  simp [leftRecursiveRulesOf]

theorem hasBaseCase_iff : g.hasBaseCase name = true ↔ g.baseRulesOf name ≠ [] := by
  simp [hasBaseCase, baseRulesOf, List.filter_eq_nil_iff, and_assoc]

theorem mem_names : name ∈ g.names ↔ ∃ rule ∈ g.rules, name ∈ rule.names := by
  simp [names]

theorem mem_names_of_mem_body (member : rule ∈ g.rules) (inside : .nonTerminal name ∈ rule.body) :
    name ∈ g.names :=
  mem_names.mpr ⟨rule, member, List.mem_cons_of_mem _ (Symbol.mem_namesIn_of_mem inside)⟩

theorem mem_names_of_mem_heads (member : name ∈ g.heads) : name ∈ g.names := by
  obtain ⟨rule, listed, rfl⟩ := mem_heads.mp member
  exact mem_names.mpr ⟨rule, listed, List.mem_cons_self⟩

theorem rulesOf_ne_nil : g.rulesOf name ≠ [] ↔ name ∈ g.heads := by
  rw [mem_heads, Ne, List.eq_nil_iff_forall_not_mem]
  simp

end Grammar
end Ebnf
