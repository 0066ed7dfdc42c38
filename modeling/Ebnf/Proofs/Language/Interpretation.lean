import Ebnf.Proofs.Names

/-! Sentences read under any meaning of the names. The words that a grammar spells are the least
meaning that keeps its rules, so to bound them from above it is enough to give some meaning that
does. The statements that rewriting a grammar changes no words are proved in this way. -/
namespace Ebnf

/-- What names mean: for each of them, the words that it may stand for. -/
abbrev Interpretation := Name → List Terminal → Prop

namespace Interpretation

/-- `I.Reads s w` says that `s` can be read as `w` when names mean what `I` says. -/
inductive Reads (I : Interpretation) : Sentence → List Terminal → Prop where
  | nil : Reads I [] []
  | terminal {t rest w} (tail : Reads I rest w) : Reads I (.terminal t :: rest) (t :: w)
  | epsilon {rest w} (tail : Reads I rest w) : Reads I (.epsilon :: rest) w
  | nonTerminal {name rest u w} (meant : I name u) (tail : Reads I rest w) :
      Reads I (.nonTerminal name :: rest) (u ++ w)
  | group {lead inner rest u w} (body : Reads I (lead :: inner) u) (tail : Reads I rest w) :
      Reads I (.bracket .group lead inner :: rest) (u ++ w)
  | option {lead inner rest u w} (body : Reads I (lead :: inner) u) (tail : Reads I rest w) :
      Reads I (.bracket .option lead inner :: rest) (u ++ w)
  | optionOmitted {lead inner rest w} (tail : Reads I rest w) :
      Reads I (.bracket .option lead inner :: rest) w
  | repetition {lead inner rest u w} (body : Reads I (lead :: inner) u)
      (tail : Reads I (.bracket .repetition lead inner :: rest) w) :
      Reads I (.bracket .repetition lead inner :: rest) (u ++ w)
  | repetitionEnded {lead inner rest w} (tail : Reads I rest w) :
      Reads I (.bracket .repetition lead inner :: rest) w
  | alternative {first others branch choice rest u w} (listed : branch ∈ first :: others)
      (chosen : choice ∈ Item.choices branch) (body : Reads I choice u)
      (tail : Reads I rest w) : Reads I (.alternative first others :: rest) (u ++ w)

/-- An interpretation keeps a rule if the head means at least what the body can be read as. -/
def Keeps (I : Interpretation) (rule : Rule) : Prop := ∀ w, I.Reads rule.body w → I rule.head w

/-- An interpretation models a grammar if it keeps all rules. -/
def Models (I : Interpretation) (g : Grammar) : Prop := ∀ rule ∈ g.rules, I.Keeps rule

variable {I J : Interpretation} {s t : Sentence} {u v w : List Terminal} {a : Symbol} {n : Name}

namespace Reads

theorem append (left : I.Reads s u) (right : I.Reads t v) : I.Reads (s ++ t) (u ++ v) := by
  induction left with
  | nil => exact right
  | terminal _ ih => exact .terminal ih
  | epsilon _ ih => exact .epsilon ih
  | nonTerminal meant _ ih => rw [List.append_assoc]; exact .nonTerminal meant ih
  | group body _ _ ih => rw [List.append_assoc]; exact .group body ih
  | option body _ _ ih => rw [List.append_assoc]; exact .option body ih
  | optionOmitted _ ih => exact .optionOmitted ih
  | repetition body _ _ ih => rw [List.append_assoc]; exact .repetition body ih
  | repetitionEnded _ ih => exact .repetitionEnded ih
  | alternative listed chosen body _ _ ih =>
    rw [List.append_assoc]
    exact .alternative listed chosen body ih

/-- A reading of a sentence can be cut behind its first symbol. A repetition is read in several
rounds, so this is an induction on the reading and no case split. -/
theorem cut (h : I.Reads (a :: t) w) : ∃ u v, w = u ++ v ∧ I.Reads [a] u ∧ I.Reads t v := by
  generalize same : a :: t = s at h
  induction h with
  | nil => cases same
  | @terminal x _ w tail _ => cases same; exact ⟨[x], w, rfl, .terminal .nil, tail⟩
  | @epsilon _ w tail _ => cases same; exact ⟨[], w, rfl, .epsilon .nil, tail⟩
  | @nonTerminal _ _ u w meant tail _ =>
    cases same
    exact ⟨u, w, rfl, by simpa using Reads.nonTerminal meant .nil, tail⟩
  | @group _ _ _ u w body tail _ _ =>
    cases same
    exact ⟨u, w, rfl, by simpa using Reads.group body .nil, tail⟩
  | @option _ _ _ u w body tail _ _ =>
    cases same
    exact ⟨u, w, rfl, by simpa using Reads.option body .nil, tail⟩
  | @optionOmitted _ _ _ w tail _ => cases same; exact ⟨[], w, rfl, .optionOmitted .nil, tail⟩
  | @repetition _ _ _ u _ body _ _ ih =>
    cases same
    obtain ⟨x, y, rfl, front, back⟩ := ih rfl
    exact ⟨u ++ x, y, (List.append_assoc ..).symm, .repetition body front, back⟩
  | @repetitionEnded _ _ _ w tail _ => cases same; exact ⟨[], w, rfl, .repetitionEnded .nil, tail⟩
  | @alternative _ _ _ _ _ u w listed chosen body tail _ _ =>
    cases same
    exact ⟨u, w, rfl, by simpa using Reads.alternative listed chosen body .nil, tail⟩

end Reads

@[simp] theorem reads_nil : I.Reads [] w ↔ w = [] := by
  constructor
  · intro h
    cases h
    rfl
  · rintro rfl
    exact .nil

theorem reads_append : I.Reads (s ++ t) w ↔ ∃ u v, w = u ++ v ∧ I.Reads s u ∧ I.Reads t v := by
  constructor
  · intro h
    induction s generalizing w with
    | nil => exact ⟨[], w, rfl, .nil, h⟩
    | cons a s ih =>
      obtain ⟨x, y, rfl, front, back⟩ := h.cut
      obtain ⟨u, v, rfl, middle, last⟩ := ih back
      exact ⟨x ++ u, v, (List.append_assoc ..).symm, by simpa using front.append middle, last⟩
  · rintro ⟨u, v, rfl, left, right⟩
    exact left.append right

theorem reads_cons : I.Reads (a :: t) w ↔ ∃ u v, w = u ++ v ∧ I.Reads [a] u ∧ I.Reads t v :=
  reads_append (s := [a])

@[simp] theorem reads_nonTerminal : I.Reads [.nonTerminal n] w ↔ I n w := by
  constructor
  · intro h
    cases h with
    | nonTerminal meant tail => simpa [reads_nil.mp tail] using meant
  · intro h
    simpa using Reads.nonTerminal h .nil

@[simp] theorem reads_epsilon_cons : I.Reads (.epsilon :: t) w ↔ I.Reads t w := by
  constructor
  · intro h
    cases h with
    | epsilon tail => exact tail
  · exact .epsilon

/-- Leaving out ε changes no reading. -/
theorem reads_visible : I.Reads (s.filter (· ≠ .epsilon)) w ↔ I.Reads s w := by
  induction s generalizing w with
  | nil => rfl
  | cons a s ih =>
    by_cases empty : a = .epsilon
    · simpa [empty] using ih
    · rw [List.filter_cons_of_pos (by simpa using empty), reads_cons, reads_cons (t := s)]
      simp only [ih]

@[simp] theorem reads_strip : I.Reads (Sentence.strip s) w ↔ I.Reads s w := by
  rw [← reads_visible (s := s)]
  unfold Sentence.strip
  split
  · next nothing => rw [nothing]; simp
  · rfl

@[simp] theorem reads_ofBody {head : Name} : I.Reads (Rule.ofBody head s).body w ↔ I.Reads s w := by
  cases s with
  | nil => simp [Rule.ofBody, Rule.body]
  | cons lead rest => rfl

/-! Names. A reading depends only on what the names in the sentence mean. -/

/-- The names of a bracket are those of its contents, and those of an alternative those of its
branches, so each premise of a reading is about names of the whole sentence. -/
theorem Reads.mono (h : I.Reads s w) (below : ∀ n ∈ Symbol.namesIn s, ∀ w, I n w → J n w) :
    J.Reads s w := by
  induction h with
  | nil => exact .nil
  | terminal _ tail => exact .terminal (tail fun n later => below n (List.mem_append_right _ later))
  | epsilon _ tail => exact .epsilon (tail fun n later => below n (List.mem_append_right _ later))
  | nonTerminal meant _ tail =>
    exact .nonTerminal (below _ (List.mem_append_left _ (List.mem_singleton_self _)) _ meant)
      (tail fun n later => below n (List.mem_append_right _ later))
  | group _ _ body tail =>
    exact .group (body fun n inside => below n (List.mem_append_left _ inside))
      (tail fun n later => below n (List.mem_append_right _ later))
  | option _ _ body tail =>
    exact .option (body fun n inside => below n (List.mem_append_left _ inside))
      (tail fun n later => below n (List.mem_append_right _ later))
  | optionOmitted _ tail =>
    exact .optionOmitted (tail fun n later => below n (List.mem_append_right _ later))
  | repetition _ _ body tail =>
    exact .repetition (body fun n inside => below n (List.mem_append_left _ inside)) (tail below)
  | repetitionEnded _ tail =>
    exact .repetitionEnded (tail fun n later => below n (List.mem_append_right _ later))
  | alternative listed chosen _ _ body tail =>
    refine .alternative listed chosen (body fun n inside => below n ?_)
      (tail fun n later => below n (List.mem_append_right _ later))
    exact List.mem_append_left _
      (Item.mem_namesInAll_of_mem listed (Item.mem_namesIn_of_mem_choices chosen inside))

theorem reads_congr (same : ∀ n ∈ Symbol.namesIn s, ∀ w, I n w ↔ J n w) :
    I.Reads s w ↔ J.Reads s w :=
  ⟨fun h => h.mono fun n member w => (same n member w).mp,
    fun h => h.mono fun n member w => (same n member w).mpr⟩

end Interpretation

namespace Grammar

variable {g g' : Grammar} {I : Interpretation} {s : Sentence} {n : Name} {w : List Terminal}

/-- What the names mean in a grammar. -/
abbrev meaning (g : Grammar) : Interpretation := g.Spells

theorem spells_of_yields {rule : Rule} (member : rule ∈ g.rules) (body : g.Yields rule.body w) :
    g.Spells rule.head w := by
  have read := Yields.nonTerminal member body .nil
  rwa [List.append_nil] at read

theorem Spells.cons {u : List Terminal} (h : g.Spells n u)
    (tail : g.Yields s w) : g.Yields (.nonTerminal n :: s) (u ++ w) := by
  cases h with
  | nonTerminal member body rest =>
    cases rest
    simpa using Yields.nonTerminal member body tail

theorem yields_iff_reads : g.Yields s w ↔ g.meaning.Reads s w := by
  constructor
  · intro h
    induction h with
    | nil => exact .nil
    | terminal _ ih => exact .terminal ih
    | epsilon _ ih => exact .epsilon ih
    | nonTerminal member body _ _ ih =>
      exact .nonTerminal (spells_of_yields member body) ih
    | group _ _ body tail => exact .group body tail
    | option _ _ body tail => exact .option body tail
    | optionOmitted _ tail => exact .optionOmitted tail
    | repetition _ _ body tail => exact .repetition body tail
    | repetitionEnded _ tail => exact .repetitionEnded tail
    | alternative listed chosen _ _ body tail => exact .alternative listed chosen body tail
  · intro h
    induction h with
    | nil => exact .nil
    | terminal _ ih => exact .terminal ih
    | epsilon _ ih => exact .epsilon ih
    | nonTerminal meant _ ih => exact Spells.cons meant ih
    | group _ _ body tail => exact .group body tail
    | option _ _ body tail => exact .option body tail
    | optionOmitted _ tail => exact .optionOmitted tail
    | repetition _ _ body tail => exact .repetition body tail
    | repetitionEnded _ tail => exact .repetitionEnded tail
    | alternative listed chosen _ _ body tail => exact .alternative listed chosen body tail

theorem spells_iff :
    g.Spells n w ↔ ∃ rule ∈ g.rules, rule.head = n ∧ g.meaning.Reads rule.body w := by
  constructor
  · intro h
    cases h with
    | nonTerminal member body tail =>
      cases tail
      exact ⟨_, member, rfl, by simpa using yields_iff_reads.mp body⟩
  · rintro ⟨rule, member, rfl, read⟩
    exact spells_of_yields member (yields_iff_reads.mpr read)

theorem meaning_models (g : Grammar) : g.meaning.Models g :=
  fun rule member _ read => spells_iff.mpr ⟨rule, member, rfl, read⟩

/-- The meaning of a grammar lies below every interpretation that models it. -/
theorem spells_least (models : I.Models g) (h : g.Spells n w) : I n w := by
  suffices read : ∀ s w, g.Yields s w → I.Reads s w from
    Interpretation.reads_nonTerminal.mp (read _ _ h)
  intro s w yields
  induction yields with
  | nil => exact .nil
  | terminal _ ih => exact .terminal ih
  | epsilon _ ih => exact .epsilon ih
  | nonTerminal member _ _ body tail => exact .nonTerminal (models _ member _ body) tail
  | group _ _ body tail => exact .group body tail
  | option _ _ body tail => exact .option body tail
  | optionOmitted _ tail => exact .optionOmitted tail
  | repetition _ _ body tail => exact .repetition body tail
  | repetitionEnded _ tail => exact .repetitionEnded tail
  | alternative listed chosen _ _ body tail => exact .alternative listed chosen body tail

end Grammar
end Ebnf
