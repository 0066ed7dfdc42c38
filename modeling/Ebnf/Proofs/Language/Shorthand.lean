import Ebnf.Proofs.Language.Rewriting

/-! Shorthand can give way to a fresh non-terminal: the rules that are made for this say what the
shorthand is read as, and in a repetition the fresh name stands for the rounds that are left. -/
namespace Ebnf

namespace Interpretation

variable {I : Interpretation} {s : Sentence} {lead : Symbol} {inner : List Symbol}
  {w : List Terminal} {items first : List Item} {others : List (List Item)}

theorem reads_alternative : I.Reads [.alternative first others] w ↔
    ∃ branch ∈ first :: others, ∃ choice ∈ Item.choices branch, I.Reads choice w := by
  constructor
  · intro read
    cases read with
    | alternative listed chosen body tail =>
      cases tail
      exact ⟨_, listed, _, chosen, by simpa using body⟩
  · rintro ⟨branch, listed, choice, chosen, body⟩
    simpa using Reads.alternative listed chosen body .nil

theorem reads_group : I.Reads [.bracket .group lead inner] w ↔ I.Reads (lead :: inner) w := by
  constructor
  · intro read
    cases read with
    | group body tail =>
      cases tail
      simpa using body
  · intro body
    simpa using Reads.group body .nil

theorem reads_option : I.Reads [.bracket .option lead inner] w ↔
    I.Reads (lead :: inner) w ∨ w = [] := by
  constructor
  · intro read
    cases read with
    | option body tail =>
      cases tail
      exact .inl (by simpa using body)
    | optionOmitted tail => exact .inr (reads_nil.mp tail)
  · rintro (body | rfl)
    · simpa using Reads.option body .nil
    · exact .optionOmitted .nil

/-- A repetition is read like any set of words that holds the empty one and can be continued in
front by the contents. -/
theorem Reads.of_repetition {words : List Terminal → Prop}
    (read : I.Reads [.bracket .repetition lead inner] w) (ended : words [])
    (round : ∀ u v, I.Reads (lead :: inner) u → words v → words (u ++ v)) : words w := by
  generalize same : [Symbol.bracket .repetition lead inner] = s at read
  induction read with
  | repetition body _ _ ih => cases same; exact round _ _ body (ih rfl)
  | repetitionEnded tail => cases same; cases tail; exact ended
  | _ => cases same

end Interpretation

open Interpretation

namespace Item

theorem choices_ofSymbols (s : Sentence) : choices (ofSymbols s) = [s] := by
  rw [choices, stretches_ofSymbols]

theorem reads_branch {I : Interpretation} {s : Sentence} {w : List Terminal} :
    (∃ choice ∈ choices (branch (ofSymbols s)), I.Reads choice w) ↔ I.Reads s w := by
  cases s with
  | nil =>
    have empty : choices (branch (ofSymbols [])) = [[.epsilon]] := rfl
    simp [empty]
  | cons a s =>
    have same : branch (ofSymbols (a :: s)) = ofSymbols (a :: s) := rfl
    simp [same, choices_ofSymbols]

end Item

/-- Bars that are folded into an alternative separate the same choices. -/
theorem Sentence.reads_ofItems {I : Interpretation} {items : List Item} {w : List Terminal} :
    I.Reads (ofItems items) w ↔ ∃ choice ∈ Item.choices items, I.Reads choice w := by
  rcases parts : Item.stretches items with ⟨first, others⟩
  cases others with
  | nil => simp [ofItems, Item.choices, parts]
  | cons second others =>
    have folded : ofItems items = [.alternative (Item.branch (Item.ofSymbols first))
        ((second :: others).map fun stretch => Item.branch (Item.ofSymbols stretch))] := by
      simp [ofItems, parts]
    have choices : Item.choices items = first :: second :: others := by simp [Item.choices, parts]
    rw [folded, reads_alternative, choices]
    simp only [List.mem_cons, List.map_cons, exists_eq_or_imp, List.mem_map,
      exists_exists_and_eq_and, Item.reads_branch]

namespace Symbol

variable {I : Interpretation} {fresh : Name} {a : Symbol} {items : List Item} {w : List Terminal}

theorem reads_ofSymbols {s : Sentence} :
    I.Reads (Sentence.ofItems (Item.ofSymbols s)) w ↔ I.Reads s w := by
  rw [Sentence.reads_ofItems, Item.choices_ofSymbols]
  simp

theorem reads_nothing : I.Reads (Sentence.ofItems [.symbol .epsilon]) w ↔ w = [] := by
  simp [Sentence.ofItems, Item.stretches]

/-- What the rules for the fresh name can be read as, the shorthand can, if the fresh name means no
more than that. -/
theorem expansion_sound (listed : items ∈ a.expansion fresh)
    (meant : ∀ w, I fresh w → I.Reads [a] w) (read : I.Reads (Sentence.ofItems items) w) :
    I.Reads [a] w := by
  have single : ∀ {b : Symbol}, items ∈ [[Item.symbol b]] → I.Reads [b] w := fun listed => by
    obtain rfl := List.mem_singleton.mp listed
    exact reads_ofSymbols.mp read
  cases a with
  | terminal | nonTerminal | epsilon => exact single listed
  | alternative first others =>
    obtain ⟨choice, chosen, body⟩ := Sentence.reads_ofItems.mp read
    exact reads_alternative.mpr ⟨items, listed, choice, chosen, body⟩
  | bracket kind lead inner =>
    cases kind with
    | group =>
      obtain rfl := List.mem_singleton.mp listed
      exact reads_group.mpr (reads_ofSymbols.mp read)
    | option =>
      rcases List.mem_cons.mp listed with rfl | empty
      · exact reads_option.mpr (.inl (reads_ofSymbols.mp read))
      · obtain rfl := List.mem_singleton.mp empty
        exact reads_option.mpr (.inr (reads_nothing.mp read))
    | repetition =>
      rcases List.mem_cons.mp listed with rfl | empty
      · obtain ⟨u, v, rfl, body, rest⟩ := reads_append.mp (reads_ofSymbols.mp read)
        exact .repetition body (meant v (reads_nonTerminal.mp rest))
      · obtain rfl := List.mem_singleton.mp empty
        obtain rfl := reads_nothing.mp read
        exact .repetitionEnded .nil

/-- What shorthand can be read as, the fresh name means, if its rules are kept. -/
theorem expansion_complete (kept : ∀ items ∈ a.expansion fresh, ∀ w,
    I.Reads (Sentence.ofItems items) w → I fresh w) (read : I.Reads [a] w) : I fresh w := by
  have symbols : ∀ s : Sentence, Item.ofSymbols s ∈ a.expansion fresh → ∀ w, I.Reads s w →
      I fresh w := fun s listed w read => kept _ listed w (reads_ofSymbols.mpr read)
  cases a with
  | terminal | nonTerminal | epsilon => exact symbols _ (List.mem_singleton_self _) w read
  | alternative first others =>
    obtain ⟨branch, listed, choice, chosen, body⟩ := reads_alternative.mp read
    exact kept branch listed w (Sentence.reads_ofItems.mpr ⟨choice, chosen, body⟩)
  | bracket kind lead inner =>
    cases kind with
    | group => exact symbols _ (List.mem_singleton_self _) w (reads_group.mp read)
    | option =>
      rcases reads_option.mp read with body | rfl
      · exact symbols _ List.mem_cons_self w body
      · exact symbols [.epsilon] (by simp [expansion, Item.ofSymbols]) [] (by simp)
    | repetition =>
      refine read.of_repetition
        (symbols [.epsilon] (by simp [expansion, Item.ofSymbols]) [] (by simp)) ?_
      intro u v body rest
      exact symbols _ List.mem_cons_self _ (body.append (reads_nonTerminal.mpr rest))

end Symbol

namespace Grammar

variable {g : Grammar} {n : Name} {w : List Terminal} {rule : Rule} {expansion : Expansion}

theorem splitAtShorthand?_eq_some {s before after : Sentence} {a : Symbol}
    (split : s.splitAtShorthand? = some (before, a, after)) :
    s = before ++ a :: after ∧ a.isShorthand = true := by
  induction s generalizing before with
  | nil => cases split
  | cons b s ih =>
    rw [Sentence.splitAtShorthand?] at split
    split at split
    · next shorthand => cases split; exact ⟨rfl, shorthand⟩
    · obtain ⟨⟨inside, found⟩, parts, same⟩ := Option.map_eq_some_iff.mp split
      cases same
      obtain ⟨rfl, shorthand⟩ := ih parts
      exact ⟨rfl, shorthand⟩

/-- What an expansion is made of. -/
theorem expansionOf?_eq_some (found : g.expansionOf? rule = some expansion) :
    expansion.fresh = g.fresh rule.head ∧ ∃ before after : Sentence,
      rule.body = before ++ expansion.shorthand :: after ∧ expansion.shorthand.isShorthand = true ∧
      expansion.rules = .ofBody rule.head (before ++ .nonTerminal expansion.fresh :: after) ::
        (expansion.shorthand.expansion expansion.fresh).map (.ofItems expansion.fresh) := by
  obtain ⟨⟨before, a, after⟩, parts, rfl⟩ := Option.map_eq_some_iff.mp found
  obtain ⟨body, shorthand⟩ := splitAtShorthand?_eq_some parts
  exact ⟨rfl, before, after, body, shorthand, rfl⟩

theorem keeps_expanded (member : rule ∈ g.rules) (found : g.expansionOf? rule = some expansion) :
    (g.replaced rule expansion.rules).meaning.Keeps rule := by
  obtain ⟨_, before, after, body, _, rules⟩ := expansionOf?_eq_some found
  have added {r : Rule} (new : r ∈ expansion.rules) : r ∈ (g.replaced rule expansion.rules).rules :=
    (mem_replaced member).mpr (.inl new)
  intro w read
  rw [body] at read
  obtain ⟨u, x, rfl, front, rest⟩ := reads_append.mp read
  obtain ⟨y, v, rfl, middle, back⟩ := reads_cons.mp rest
  have spelled : (g.replaced rule expansion.rules).Spells expansion.fresh y := by
    refine Symbol.expansion_complete (fun items listed w read => ?_) middle
    have new : Rule.ofItems expansion.fresh items ∈ expansion.rules := by
      rw [rules]
      exact List.mem_cons_of_mem _ (List.mem_map.mpr ⟨items, listed, rfl⟩)
    have spelled := meaning_models _ _ (added new) w (reads_ofBody.mpr read)
    rwa [Rule.ofItems, Rule.head_ofBody] at spelled
  have new := added (rules ▸ List.mem_cons_self)
  have spelled := meaning_models _ _ new (u ++ (y ++ v))
    (reads_ofBody.mpr (front.append (.nonTerminal spelled back)))
  rwa [Rule.head_ofBody] at spelled

/-- The new rules hold where the fresh name stands for what the shorthand can be read as. -/
theorem keeps_of_mem_expansion (member : rule ∈ g.rules)
    (found : g.expansionOf? rule = some expansion) {r : Rule} (new : r ∈ expansion.rules) :
    Keeps (Function.update g.meaning expansion.fresh (g.meaning.Reads [expansion.shorthand]))
      r := by
  obtain ⟨fresh, before, after, body, _, rules⟩ := expansionOf?_eq_some found
  have absent : expansion.fresh ∉ rule.names := fun named =>
    g.fresh_notMem_names rule.head (fresh ▸ mem_names.mpr ⟨rule, member, named⟩)
  have outside : expansion.fresh ∉ Symbol.namesIn before ∧
      expansion.fresh ∉ expansion.shorthand.names ∧ expansion.fresh ∉ Symbol.namesIn after := by
    have apart : expansion.fresh ∉ Symbol.namesIn rule.body := fun named =>
      absent (List.mem_cons_of_mem _ named)
    rw [body, Symbol.mem_namesIn_append, Symbol.mem_namesIn_cons] at apart
    simpa only [not_or] using apart
  intro w read
  rw [rules] at new
  rcases List.mem_cons.mp new with rfl | rest
  · have different : rule.head ≠ expansion.fresh := fun same =>
      absent (same ▸ List.mem_cons_self)
    obtain ⟨u, x, rfl, front, rest⟩ := reads_append.mp (reads_ofBody.mp read)
    obtain ⟨y, v, rfl, middle, back⟩ := reads_cons.mp rest
    rw [Rule.head_ofBody, Function.update_of_ne different]
    refine g.meaning_models rule member _ ?_
    rw [body]
    have middle := reads_nonTerminal.mp middle
    rw [Function.update_self] at middle
    have rest := middle.append ((reads_update outside.2.2).mp back)
    exact ((reads_update outside.1).mp front).append rest
  · obtain ⟨items, listed, rfl⟩ := List.mem_map.mp rest
    have alone : expansion.fresh ∉ Symbol.namesIn [expansion.shorthand] := by
      simpa using outside.2.1
    rw [Rule.ofItems, Rule.head_ofBody, Function.update_self]
    refine (reads_update alone).mp (Symbol.expansion_sound listed (fun w meant => ?_)
      (reads_ofBody.mp read))
    rw [Function.update_self] at meant
    exact (reads_update alone).mpr meant

theorem spells_expanded (member : rule ∈ g.rules) (found : g.expansionOf? rule = some expansion)
    (other : n ≠ expansion.fresh) :
    (g.replaced rule expansion.rules).Spells n w ↔ g.Spells n w := by
  have unused : expansion.fresh ∉ g.names :=
    (expansionOf?_eq_some found).1 ▸ g.fresh_notMem_names rule.head
  refine spells_congr_of_fresh (g.meaning.Reads [expansion.shorthand]) unused ?_ ?_ other
  · intro r old gone
    obtain rfl : r = rule := by
      by_contra different
      exact gone (mem_replaced_of_ne old different)
    exact keeps_expanded member found
  · intro r new old
    exact keeps_of_mem_expansion member found ((mem_of_mem_replaced new).resolve_right old)

end Grammar
end Ebnf
