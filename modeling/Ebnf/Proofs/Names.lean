import Ebnf.Language.Yields
import Ebnf.Proofs.Folding

/-! The names in symbols, sentences and rules, through all that is done with these: sentences are
put together and freed of ε, items are folded into sentences, and shorthand is expanded. -/
namespace Ebnf

variable {n : Name} {s t : Sentence}

namespace Symbol

theorem name?_eq_some {a : Symbol} : a.name? = some n ↔ a = .nonTerminal n := by
  cases a <;> simp [name?]

@[simp] theorem mem_namesIn_cons {a : Symbol} :
    n ∈ namesIn (a :: s) ↔ n ∈ a.names ∨ n ∈ namesIn s := by
  simp [namesIn]

@[simp] theorem mem_names_nonTerminal {m : Name} : n ∈ (nonTerminal m).names ↔ n = m := by
  simp [names]

@[simp] theorem notMem_namesIn_nil : n ∉ namesIn [] := by
  simp [namesIn]

@[simp] theorem notMem_names_epsilon : n ∉ epsilon.names := by
  simp [names]

@[simp] theorem mem_namesIn_append : n ∈ namesIn (s ++ t) ↔ n ∈ namesIn s ∨ n ∈ namesIn t := by
  induction s with
  | nil => simp
  | cons a s ih => simp [ih, or_assoc]

theorem mem_namesIn_of_mem (member : .nonTerminal n ∈ s) : n ∈ namesIn s := by
  obtain ⟨before, after, rfl⟩ := List.append_of_mem member
  simp

theorem mem_namesIn_iff : n ∈ namesIn s ↔ ∃ a ∈ s, n ∈ a.names := by
  induction s with
  | nil => simp
  | cons a s ih => simp [ih]

end Symbol

namespace Sentence

/-! Shorthand in sentences. -/

theorem plain_append :
    hasShorthand (s ++ t) = false ↔ s.hasShorthand = false ∧ t.hasShorthand = false := by
  rw [hasShorthand, List.any_append, Bool.or_eq_false_iff]
  rfl

theorem plain_cons {a : Symbol} :
    hasShorthand (a :: s) = false ↔ a.isShorthand = false ∧ s.hasShorthand = false := by
  rw [hasShorthand, List.any_cons, Bool.or_eq_false_iff]
  rfl

end Sentence

namespace Symbol

theorem mem_namesIn_of_plain (plain : s.hasShorthand = false) :
    n ∈ namesIn s ↔ .nonTerminal n ∈ s := by
  refine ⟨fun named => ?_, mem_namesIn_of_mem⟩
  induction s with
  | nil => simp at named
  | cons a s ih =>
    rw [Sentence.plain_cons] at plain
    rcases mem_namesIn_cons.mp named with here | later
    · cases a with
      | nonTerminal m =>
        obtain rfl := mem_names_nonTerminal.mp here
        exact List.mem_cons_self
      | terminal | epsilon => cases here
      | bracket | alternative => simp [isShorthand] at plain
    · exact List.mem_cons_of_mem _ (ih plain.2 later)

end Symbol

open Ebnf.Symbol

theorem Sentence.mem_namesIn_strip : n ∈ namesIn (strip s) ↔ n ∈ namesIn s := by
  have visible : n ∈ namesIn (s.filter (· ≠ .epsilon)) ↔ n ∈ namesIn s := by
    induction s with
    | nil => rfl
    | cons a s ih =>
      by_cases empty : a = .epsilon
      · simpa [empty] using ih
      · rw [List.filter_cons_of_pos (by simpa using empty)]
        simp only [mem_namesIn_cons, ih]
  rw [← visible, strip]
  split
  · next nothing =>
    rw [nothing]
    simp
  · rfl

namespace Item

variable {items branch : List Item} {choice : Sentence} {branches : List (List Item)}

theorem mem_namesIn_of_mem_choices (chosen : choice ∈ choices items)
    (member : n ∈ Symbol.namesIn choice) :
    n ∈ namesIn items := by
  induction items generalizing choice with
  | nil =>
    obtain rfl : choice = [] := by simpa [choices, stretches] using chosen
    simp at member
  | cons item items ih =>
    cases item with
    | bar =>
      simp only [choices, stretches, List.mem_cons] at chosen
      rcases chosen with rfl | later
      · simp at member
      · exact ih (by simpa [choices] using later) member
    | symbol a =>
      simp only [choices, stretches, List.mem_cons] at chosen
      simp only [namesIn, List.mem_append]
      rcases chosen with rfl | later
      · exact (mem_namesIn_cons.mp member).imp_right (ih (by simp [choices]))
      · exact .inr (ih (by simp [choices, later]) member)

theorem exists_choice_of_mem_namesIn (member : n ∈ namesIn items) :
    ∃ choice ∈ choices items, n ∈ Symbol.namesIn choice := by
  induction items with
  | nil => simp [namesIn] at member
  | cons item items ih =>
    have later (inside : n ∈ namesIn items) : n ∈ Symbol.namesIn (stretches items).1 ∨
        ∃ choice ∈ (stretches items).2, n ∈ Symbol.namesIn choice := by
      simpa [choices] using ih inside
    cases item with
    | bar => simpa [choices, stretches] using later member
    | symbol a =>
      rcases List.mem_append.mp member with here | inside
      · exact ⟨_, List.mem_cons_self, mem_namesIn_cons.mpr (.inl here)⟩
      · rcases later inside with first | ⟨choice, listed, named⟩
        · exact ⟨_, List.mem_cons_self, mem_namesIn_cons.mpr (.inr first)⟩
        · exact ⟨choice, List.mem_cons_of_mem _ listed, named⟩

theorem mem_namesIn_iff : n ∈ namesIn items ↔ ∃ a, .symbol a ∈ items ∧ n ∈ a.names := by
  induction items with
  | nil => simp [namesIn]
  | cons item items ih =>
    cases item with
    | bar => simp [namesIn, ih]
    | symbol a => simp [namesIn, ih, or_and_right, exists_or]

theorem mem_namesInAll_of_mem (listed : branch ∈ branches) (member : n ∈ namesIn branch) :
    n ∈ namesInAll branches := by
  induction branches with
  | nil => cases listed
  | cons first others ih =>
    simp only [namesInAll, List.mem_append]
    rcases List.mem_cons.mp listed with rfl | later
    · exact .inl member
    · exact .inr (ih later)

theorem exists_of_mem_namesInAll (member : n ∈ namesInAll branches) :
    ∃ branch ∈ branches, n ∈ namesIn branch := by
  induction branches with
  | nil => simp [namesInAll] at member
  | cons first others ih =>
    rcases List.mem_append.mp member with here | later
    · exact ⟨first, List.mem_cons_self, here⟩
    · obtain ⟨branch, listed, named⟩ := ih later
      exact ⟨branch, List.mem_cons_of_mem _ listed, named⟩

theorem mem_namesInAll_iff : n ∈ namesInAll branches ↔ ∃ items ∈ branches, n ∈ namesIn items :=
  ⟨exists_of_mem_namesInAll, fun ⟨_, listed, member⟩ => mem_namesInAll_of_mem listed member⟩

theorem mem_namesIn_ofSymbols : n ∈ namesIn (ofSymbols s) ↔ n ∈ Symbol.namesIn s := by
  induction s with
  | nil => rfl
  | cons a s ih =>
    change n ∈ a.names ++ namesIn (ofSymbols s) ↔ _
    rw [List.mem_append, mem_namesIn_cons, ih]

theorem mem_namesIn_branch : n ∈ namesIn (Item.branch items) ↔ n ∈ namesIn items := by
  cases items <;> simp [Item.branch, namesIn]

end Item

/-- Folding items at their bars brings in no name. -/
theorem Sentence.mem_namesIn_of_mem_ofItems {items : List Item}
    (member : n ∈ namesIn (ofItems items)) : n ∈ Item.namesIn items := by
  rcases parts : Item.stretches items with ⟨first, others⟩
  suffices chosen : ∃ choice ∈ Item.choices items, n ∈ namesIn choice by
    obtain ⟨choice, listed, named⟩ := chosen
    exact Item.mem_namesIn_of_mem_choices listed named
  have choices : Item.choices items = first :: others := by simp [Item.choices, parts]
  rw [choices]
  cases others with
  | nil => exact ⟨first, List.mem_cons_self, by simpa [ofItems, parts] using member⟩
  | cons second others =>
    simp only [ofItems, parts, mem_namesIn_cons, notMem_namesIn_nil, or_false, names,
      List.mem_append, Item.mem_namesIn_branch, Item.mem_namesIn_ofSymbols] at member
    rcases member with here | later
    · exact ⟨first, List.mem_cons_self, here⟩
    · obtain ⟨branch, listed, named⟩ := Item.exists_of_mem_namesInAll later
      obtain ⟨stretch, there, rfl⟩ := List.mem_map.mp listed
      rw [Item.mem_namesIn_branch, Item.mem_namesIn_ofSymbols] at named
      exact ⟨stretch, List.mem_cons_of_mem _ there, named⟩

/-- It loses none either. -/
theorem Sentence.mem_namesIn_ofItems {items : List Item} (member : n ∈ Item.namesIn items) :
    n ∈ namesIn (ofItems items) := by
  obtain ⟨choice, listed, named⟩ := Item.exists_choice_of_mem_namesIn member
  rcases parts : Item.stretches items with ⟨first, others⟩
  rw [Item.choices, parts] at listed
  cases others with
  | nil =>
    obtain rfl := List.mem_singleton.mp listed
    simpa [ofItems, parts] using named
  | cons second others =>
    rw [ofItems, parts]
    simp only [mem_namesIn_cons, notMem_namesIn_nil, or_false, names, List.mem_append]
    rcases List.mem_cons.mp listed with rfl | later
    · exact .inl (Item.mem_namesIn_branch.mpr (Item.mem_namesIn_ofSymbols.mpr named))
    · refine .inr (Item.mem_namesInAll_of_mem (List.mem_map.mpr ⟨choice, later, rfl⟩) ?_)
      exact Item.mem_namesIn_branch.mpr (Item.mem_namesIn_ofSymbols.mpr named)

theorem Symbol.expansion_ne_nil (a : Symbol) (fresh : Name) : a.expansion fresh ≠ [] := by
  cases a with
  | bracket kind => cases kind <;> simp [expansion]
  | _ => simp [expansion]

/-- The rules that an expansion makes have no names but the fresh one and those of the shorthand. -/
theorem Symbol.mem_names_of_mem_expansion {a : Symbol} {fresh : Name} {items : List Item}
    (listed : items ∈ a.expansion fresh) (member : n ∈ Item.namesIn items) :
    n = fresh ∨ n ∈ a.names := by
  have single : items ∈ [[Item.symbol a]] → n ∈ a.names := fun listed => by
    obtain rfl := List.mem_singleton.mp listed
    simpa [Item.namesIn] using member
  cases a with
  | terminal | nonTerminal | epsilon => exact .inr (single listed)
  | alternative first others => exact .inr (Item.mem_namesInAll_of_mem listed member)
  | bracket kind lead inner =>
    have empty : items ∈ [[Item.symbol .epsilon]] → n ∈ (bracket kind lead inner).names :=
      fun listed => by
        obtain rfl := List.mem_singleton.mp listed
        simp [Item.namesIn] at member
    cases kind with
    | group =>
      obtain rfl := List.mem_singleton.mp listed
      exact .inr (Item.mem_namesIn_ofSymbols.mp member)
    | option =>
      rcases List.mem_cons.mp listed with rfl | nothing
      · exact .inr (Item.mem_namesIn_ofSymbols.mp member)
      · exact .inr (empty nothing)
    | repetition =>
      rcases List.mem_cons.mp listed with rfl | nothing
      · rw [Item.mem_namesIn_ofSymbols, mem_namesIn_append] at member
        exact member.symm.imp (by simpa using ·) id
      · exact .inr (empty nothing)

/-- They have all names of the shorthand. -/
theorem Symbol.exists_mem_expansion {a : Symbol} (fresh : Name) (member : n ∈ a.names) :
    ∃ items ∈ a.expansion fresh, n ∈ Item.namesIn items := by
  cases a with
  | terminal | epsilon => cases member
  | nonTerminal => exact ⟨_, List.mem_cons_self, by simpa [Item.namesIn] using member⟩
  | alternative first others =>
    have inside : n ∈ Item.namesInAll (first :: others) := member
    exact Item.exists_of_mem_namesInAll inside
  | bracket kind lead inner =>
    have inside : n ∈ namesIn (lead :: inner) := member
    cases kind with
    | group | option => exact ⟨_, List.mem_cons_self, Item.mem_namesIn_ofSymbols.mpr inside⟩
    | repetition =>
      refine ⟨_, List.mem_cons_self, Item.mem_namesIn_ofSymbols.mpr ?_⟩
      exact mem_namesIn_append.mpr (.inl inside)

namespace Rule

variable {head : Name}

theorem unit?_eq_some {rule : Rule} :
    rule.unit? = some n ↔ rule.rest = [] ∧ rule.lead = .nonTerminal n := by
  rw [unit?]
  split
  · next alone => simp [alone, name?_eq_some]
  · next more => simp [more]

theorem isLeftRecursive_iff {rule : Rule} :
    rule.isLeftRecursive = true ↔ rule.lead = .nonTerminal rule.head := by
  simp [isLeftRecursive]

theorem lead_ne_epsilon {rule : Rule} (visible : .epsilon ∉ rule.body) : rule.lead ≠ .epsilon := by
  intro same
  exact visible (same ▸ List.mem_cons_self)

@[simp] theorem head_ofBody (head : Name) (s : Sentence) : (ofBody head s).head = head := by
  cases s <;> rfl

theorem mem_names_ofBody : n ∈ (ofBody head s).names ↔ n = head ∨ n ∈ namesIn s := by
  cases s <;> simp [ofBody, names, body]

end Rule
end Ebnf
