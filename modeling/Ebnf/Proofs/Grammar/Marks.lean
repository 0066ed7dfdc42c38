import Mathlib.Data.List.Basic
import Ebnf.Grammar.Measure
import Ebnf.Proofs.Editing.Change
import Ebnf.Proofs.Language.Shorthand

/-! How expansion lowers the number of marks. Shorthand has one mark more than all that it is
expanded to. Folding adds a mark for an alternative that was not there, but it takes away at least
one bar, so each rule that an expansion makes has fewer marks than the rule it takes the place of;
and where there are no bars, no mark is lost but that of the shorthand. -/
namespace Ebnf

namespace Symbol

variable {s t : Sentence}

@[simp] theorem marksIn_nil : marksIn [] = [] := by simp [marksIn]

@[simp] theorem marksIn_cons {a : Symbol} : marksIn (a :: s) = a.marks ++ marksIn s := by
  simp [marksIn]

@[simp] theorem marks_nonTerminal {n : Name} : (nonTerminal n).marks = [] := by simp [marks]

@[simp] theorem marks_epsilon : epsilon.marks = [] := by simp [marks]

@[simp] theorem marksIn_append : marksIn (s ++ t) = marksIn s ++ marksIn t := by
  induction s with
  | nil => simp
  | cons a s ih => simp [ih]

theorem marks_eq_nil_iff {a : Symbol} : a.marks = [] ↔ a.isShorthand = false := by
  cases a <;> simp [marks, isShorthand]

theorem marksIn_eq_nil_iff : marksIn s = [] ↔ s.hasShorthand = false := by
  induction s with
  | nil => simp [Sentence.hasShorthand]
  | cons a s ih => simp [ih, marks_eq_nil_iff, Sentence.plain_cons]

end Symbol

namespace Item

variable {items : List Item} {branches : List (List Item)}

@[simp] theorem marksIn_ofSymbols (s : Sentence) : marksIn (ofSymbols s) = Symbol.marksIn s := by
  induction s with
  | nil => simp [ofSymbols, marksIn]
  | cons a s ih => simpa [ofSymbols, marksIn] using ih

@[simp] theorem marksIn_branch : marksIn (branch items) = marksIn items := by
  cases items <;> simp [branch, marksIn]

theorem marksInAll_eq_flatMap : marksInAll branches = branches.flatMap marksIn := by
  induction branches with
  | nil => simp [marksInAll]
  | cons first others ih => simp [marksInAll, ih]

/-- The marks in what was written: those in the first stretch, and a bar before those in each of
the others. -/
theorem marksIn_eq_stretches : marksIn items = Symbol.marksIn (stretches items).1 ++
    (stretches items).2.flatMap fun stretch => .bar :: Symbol.marksIn stretch := by
  induction items with
  | nil => simp [marksIn, stretches]
  | cons item items ih => cases item <;> simp [marksIn, stretches, ih]

end Item

/-- Each part that begins with an element more makes the whole longer by one. -/
theorem length_flatMap_cons {α β : Type} (b : β) (f : α → List β) (xs : List α) :
    (xs.flatMap fun x => b :: f x).length = xs.length + (xs.flatMap f).length := by
  induction xs with
  | nil => rfl
  | cons x xs ih =>
    simp only [List.flatMap_cons, List.length_append, List.length_cons, ih]
    omega

namespace Sentence

variable {items : List Item}

/-- Folding puts one mark in the place of all bars. -/
theorem marksIn_ofItems (items : List Item) :
    Symbol.marksIn (ofItems items) = Item.marksIn items ∧ (Item.stretches items).2 = [] ∨
      (Item.stretches items).2 ≠ [] ∧ Symbol.marksIn (ofItems items) =
        .shorthand :: (Symbol.marksIn (Item.stretches items).1 ++
          (Item.stretches items).2.flatMap Symbol.marksIn) := by
  rw [Item.marksIn_eq_stretches]
  rcases parts : Item.stretches items with ⟨first, others⟩
  cases others with
  | nil => simp [ofItems, parts]
  | cons second others =>
    refine .inr ⟨by simp, ?_⟩
    simp [ofItems, parts, Symbol.marks, Item.marksInAll_eq_flatMap, List.flatMap_map]

theorem length_marksIn_ofItems :
    (Symbol.marksIn (ofItems items)).length ≤ (Item.marksIn items).length := by
  rcases marksIn_ofItems items with ⟨same, _⟩ | ⟨barred, folded⟩
  · exact same ▸ Nat.le_refl _
  · -- The alternative is one mark more, and each stretch behind a bar is a bar less.
    have bars : 0 < (Item.stretches items).2.length := List.length_pos_iff.mpr barred
    rw [folded, Item.marksIn_eq_stretches, List.length_cons, List.length_append, List.length_append,
      length_flatMap_cons]
    omega

/-- Without bars there is nothing to fold. -/
theorem marksIn_ofItems_of_bar_notMem (barless : .bar ∉ Item.marksIn items) :
    Symbol.marksIn (ofItems items) = Item.marksIn items := by
  rcases marksIn_ofItems items with ⟨same, _⟩ | ⟨barred, _⟩
  · exact same
  · obtain ⟨stretch, listed⟩ := List.exists_mem_of_ne_nil _ barred
    refine absurd ?_ barless
    rw [Item.marksIn_eq_stretches]
    exact List.mem_append_right _ (List.mem_flatMap.mpr ⟨stretch, listed, List.mem_cons_self⟩)

end Sentence

/-- Shorthand has one mark more than what it stands for. -/
theorem Symbol.marks_of_isShorthand {a : Symbol} (shorthand : a.isShorthand = true) (fresh : Name) :
    a.marks = .shorthand :: (a.expansion fresh).flatMap Item.marksIn := by
  cases a with
  | terminal | nonTerminal | epsilon => cases shorthand
  | alternative first others => simp [marks, expansion, Item.marksInAll_eq_flatMap]
  | bracket kind lead inner => cases kind <;> simp [marks, expansion, Item.marksIn]

@[simp] theorem Rule.marks_ofBody (head : Name) (s : Sentence) :
    (ofBody head s).marks = Symbol.marksIn s := by
  cases s <;> simp [ofBody, marks, body]

namespace Grammar

variable {g g' : Grammar} {rule r : Rule} {rules : List Rule} {expansion : Expansion}

theorem marks_eq_nil_iff : g.marks = [] ↔ g.hasShorthand = false := by
  rw [marks, List.flatMap_eq_nil_iff, hasShorthand, List.any_eq_false]
  refine forall₂_congr fun rule _ => ?_
  rw [Rule.marks, Symbol.marksIn_eq_nil_iff, Bool.not_eq_true]
  rfl

theorem splitAtShorthand?_eq_none {s : Sentence} (none : s.splitAtShorthand? = none) :
    s.hasShorthand = false := by
  induction s with
  | nil => rfl
  | cons a s ih =>
    rw [Sentence.splitAtShorthand?] at none
    split at none
    · cases none
    · next plain =>
      exact Sentence.plain_cons.mpr ⟨by simpa using plain, ih (Option.map_eq_none_iff.mp none)⟩

theorem marks_of_expansionOf?_eq_none (none : g.expansionOf? rule = none) : rule.marks = [] :=
  Symbol.marksIn_eq_nil_iff.mpr (splitAtShorthand?_eq_none (Option.map_eq_none_iff.mp none))

/-- The marks of a rule, and those of what it is expanded to. -/
theorem exists_marks (found : g.expansionOf? rule = some expansion) :
    ∃ front back : List Mark, ∃ first, ∃ branches : List (List Item),
      expansion.rules = first :: branches.map (.ofItems expansion.fresh) ∧
        first.marks = front ++ back ∧
        rule.marks = front ++ .shorthand :: (branches.flatMap Item.marksIn ++ back) := by
  obtain ⟨_, before, after, body, shorthand, rules⟩ := expansionOf?_eq_some found
  refine ⟨Symbol.marksIn before, Symbol.marksIn after, _, _, rules, ?_, ?_⟩
  · simp
  · simp [Rule.marks, body, Symbol.marks_of_isShorthand shorthand expansion.fresh]

/-- Each rule of an expansion has fewer marks than the rule that is expanded. -/
theorem length_marks_lt (found : g.expansionOf? rule = some expansion)
    (new : r ∈ expansion.rules) : r.marks.length < rule.marks.length := by
  obtain ⟨front, back, first, branches, rules, kept, marks⟩ := exists_marks found
  rw [marks, List.length_append, List.length_cons, List.length_append]
  rw [rules] at new
  rcases List.mem_cons.mp new with rfl | branch
  · rw [kept, List.length_append]
    omega
  · obtain ⟨items, listed, rfl⟩ := List.mem_map.mp branch
    have folded : (Rule.ofItems expansion.fresh items).marks.length ≤
        (Item.marksIn items).length := by
      rw [Rule.ofItems, Rule.marks_ofBody]
      exact Sentence.length_marksIn_ofItems
    obtain ⟨before, after, rfl⟩ := List.append_of_mem listed
    rw [List.flatMap_append, List.flatMap_cons, List.length_append, List.length_append]
    omega

/-- Without bars the marks of an expansion are all marks of the rule but that of the shorthand. -/
theorem marks_perm_expansion (found : g.expansionOf? rule = some expansion)
    (barless : .bar ∉ rule.marks) :
    rule.marks.Perm (.shorthand :: expansion.rules.flatMap Rule.marks) := by
  obtain ⟨front, back, first, branches, rules, kept, marks⟩ := exists_marks found
  have folded : ∀ items ∈ branches,
      (Rule.ofItems expansion.fresh items).marks = Item.marksIn items := by
    intro items listed
    rw [Rule.ofItems, Rule.marks_ofBody]
    refine Sentence.marksIn_ofItems_of_bar_notMem fun bar => barless ?_
    have inside : .bar ∈ branches.flatMap Item.marksIn := List.mem_flatMap.mpr ⟨items, listed, bar⟩
    simp [marks, inside]
  have same : (branches.map (.ofItems expansion.fresh)).flatMap Rule.marks =
      branches.flatMap Item.marksIn := by
    rw [List.flatMap_map]
    exact List.flatMap_congr folded
  rw [marks, rules, List.flatMap_cons, kept, same]
  refine List.perm_middle.trans (.cons _ ?_)
  rw [List.append_assoc]
  exact List.perm_append_comm.append_left front

end Grammar

open Grammar

variable {g g' : Grammar} {events : List Event}

/-- Without bars, an expansion takes away one mark, which is that of shorthand. -/
theorem Change.marks_perm (change : Change .shorthand g events g') (barless : .bar ∉ g.marks) :
    g.marks.Perm
      (List.replicate (events.filterMap Event.record?).length .shorthand ++ g'.marks) := by
  cases change with
  | loops kinds | direct kinds => exact kinds.elim
  | @expansion _ rule expansion member found =>
    have inside : ∀ mark ∈ rule.marks, mark ∈ g.marks := fun mark listed =>
      List.mem_flatMap.mpr ⟨rule, member, listed⟩
    have expanded := marks_perm_expansion found fun bar => barless (inside _ bar)
    have rules : (g.replaced rule expansion.rules).rules.Perm
        (expansion.rules ++ g.rules.erase rule) := replaceFirst_perm member
    have before := (List.perm_cons_erase member).flatMap_right Rule.marks
    have after := rules.flatMap_right Rule.marks
    rw [List.flatMap_cons] at before
    rw [List.flatMap_append] at after
    simpa [marks] using before.trans ((expanded.append_right _).trans (after.symm.cons _))

/-- Without bars, there are as many records of expansions as marks that are gone. -/
theorem Path.marks_perm (path : Path (· = .shorthand) g events g') (barless : .bar ∉ g.marks) :
    g.marks.Perm
      (List.replicate (events.filterMap Event.record?).length .shorthand ++ g'.marks) := by
  induction path with
  | refl => simp
  | remark _ _ ih => simpa using ih barless
  | next kinds change _ ih =>
    subst kinds
    have first := change.marks_perm barless
    have rest := ih fun bar => barless (first.mem_iff.mpr (List.mem_append_right _ bar))
    rw [List.filterMap_append, List.length_append, List.replicate_add, List.append_assoc]
    exact first.trans (rest.append_left _)

end Ebnf
