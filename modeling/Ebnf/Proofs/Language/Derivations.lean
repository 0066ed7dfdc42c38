import Mathlib.Tactic.ByContra
import Ebnf.Language.Derives

/-! Derivations taken apart. What is put for a symbol stays between its neighbours, so sentences one
behind the other derive independently of each other. Hence the first visible non-terminal of a
derived sentence is uncovered from one of the sentence before, and left recursion is a circle of
bodies whose beginnings can vanish. -/
namespace Ebnf

variable {g : Grammar} {s t u s' t' before after rest : Sentence} {x y z : Name} {rule : Rule}

@[simp] theorem Sentence.visible_append : (s ++ t).visible = s.visible ++ t.visible :=
  List.filter_append ..

@[simp] theorem Sentence.visible_nonTerminal :
    Sentence.visible (.nonTerminal x :: s) = .nonTerminal x :: s.visible :=
  List.filter_cons_of_pos (by simp)

theorem Sentence.exists_of_visible {a : Symbol} {front back : Sentence}
    (shown : s.visible = front ++ a :: back) : ∃ before after : Sentence,
      s = before ++ a :: after ∧ before.visible = front ∧ after.visible = back := by
  obtain ⟨before, rest, rfl, first, later⟩ := List.filter_eq_append_iff.mp shown
  obtain ⟨gone, after, rfl, hidden, _, last⟩ := List.filter_eq_cons_iff.mp later
  have nothing : visible gone = [] := List.filter_eq_nil_iff.mpr hidden
  refine ⟨before ++ gone, after, by simp, ?_, last⟩
  rw [visible_append, nothing, List.append_nil]
  exact first

namespace Grammar

/-! Sentences one behind the other. -/

/-- An occurrence of a symbol is in the first sentence or in the second. -/
theorem append_eq_append_cons {a : Symbol} (split : s ++ t = before ++ a :: after) :
    (∃ rest, s = before ++ a :: rest ∧ after = rest ++ t) ∨
      ∃ rest, before = s ++ rest ∧ t = rest ++ a :: after := by
  rcases List.append_eq_append_iff.mp split with ⟨rest, rfl, rfl⟩ | ⟨rest, rfl, cut⟩
  · exact .inr ⟨rest, rfl, rfl⟩
  · rcases List.append_eq_cons_iff.mp cut.symm with ⟨rfl, rfl⟩ | ⟨rest, rfl, rfl⟩
    · exact .inr ⟨[], by simp, rfl⟩
    · exact .inl ⟨rest, rfl, rfl⟩

theorem Step.append_left (step : g.Step s t) (front : Sentence) :
    g.Step (front ++ s) (front ++ t) := by
  obtain ⟨rule, member, before, after, rfl, rfl⟩ := step
  exact ⟨rule, member, front ++ before, after, by simp, by simp⟩

theorem Step.append_right (step : g.Step s t) (back : Sentence) :
    g.Step (s ++ back) (t ++ back) := by
  obtain ⟨rule, member, before, after, rfl, rfl⟩ := step
  exact ⟨rule, member, before, after ++ back, by simp, by simp⟩

theorem step_nonTerminal :
    g.Step [.nonTerminal x] t ↔ ∃ rule ∈ g.rules, rule.head = x ∧ t = rule.body := by
  constructor
  · rintro ⟨rule, member, before, after, alone, rfl⟩
    obtain ⟨rfl, same⟩ | ⟨_, _, nothing⟩ := List.append_eq_cons_iff.mp alone.symm
    · obtain ⟨named, rfl⟩ := List.cons.inj same
      exact ⟨rule, member, by simpa using named, by simp⟩
    · simp at nothing
  · rintro ⟨rule, member, rfl, rfl⟩
    exact ⟨rule, member, [], [], rfl, by simp⟩

theorem Derives.append (left : g.Derives s s') (right : g.Derives t t') :
    g.Derives (s ++ t) (s' ++ t') :=
  have front : g.Derives (s ++ t) (s' ++ t) :=
    left.lift (· ++ t) fun _ _ step => step.append_right t
  front.trans (right.lift (s' ++ ·) fun _ _ step => step.append_left s')

/-- A step is taken in one of two parts. -/
theorem Step.of_append (step : g.Step (s ++ t) u) :
    (∃ s', g.Step s s' ∧ u = s' ++ t) ∨ ∃ t', g.Step t t' ∧ u = s ++ t' := by
  obtain ⟨rule, member, before, after, split, rfl⟩ := step
  rcases append_eq_append_cons split with ⟨rest, rfl, rfl⟩ | ⟨rest, rfl, rfl⟩
  · exact .inl ⟨before ++ rule.body ++ rest, ⟨rule, member, before, rest, rfl, rfl⟩, by simp⟩
  · exact .inr ⟨rest ++ rule.body ++ after, ⟨rule, member, rest, after, rfl, rfl⟩, by simp⟩

theorem Derives.of_append (derives : g.Derives (s ++ t) u) :
    ∃ s' t', g.Derives s s' ∧ g.Derives t t' ∧ u = s' ++ t' := by
  induction derives with
  | refl => exact ⟨s, t, .refl, .refl, rfl⟩
  | tail _ step ih =>
    obtain ⟨s', t', left, right, rfl⟩ := ih
    rcases step.of_append with ⟨s'', first, rfl⟩ | ⟨t'', second, rfl⟩
    · exact ⟨s'', t', left.tail first, right, rfl⟩
    · exact ⟨s', t'', left, right.tail second, rfl⟩

theorem vanishes_append : g.Vanishes (s ++ t) ↔ g.Vanishes s ∧ g.Vanishes t := by
  constructor
  · rintro ⟨u, derives, nothing⟩
    obtain ⟨s', t', left, right, rfl⟩ := derives.of_append
    obtain ⟨front, back⟩ := List.append_eq_nil_iff.mp (Sentence.visible_append ▸ nothing)
    exact ⟨⟨s', left, front⟩, t', right, back⟩
  · rintro ⟨⟨s', left, front⟩, t', right, back⟩
    exact ⟨s' ++ t', left.append right, by rw [Sentence.visible_append, front, back]; rfl⟩

theorem Vanishes.of_body (member : rule ∈ g.rules) (vanishes : g.Vanishes rule.body) :
    g.Vanishes [.nonTerminal rule.head] := by
  obtain ⟨t, derives, nothing⟩ := vanishes
  exact ⟨t, .head (step_nonTerminal.mpr ⟨rule, member, rfl, rfl⟩) derives, nothing⟩

/-! The first visible non-terminal. -/

/-- `g.Begins s y` says that a non-terminal of `s` has nothing before it but what can vanish, and
that `y` is uncovered from it. -/
def Begins (g : Grammar) (s : Sentence) (y : Name) : Prop :=
  ∃ before x after, s = before ++ .nonTerminal x :: after ∧ g.Vanishes before ∧
    Relation.ReflTransGen g.Uncovers x y

theorem begins_append :
    g.Begins (s ++ t) y ↔ g.Begins s y ∨ g.Vanishes s ∧ g.Begins t y := by
  constructor
  · rintro ⟨before, x, after, split, vanishes, uncovers⟩
    rcases append_eq_append_cons split with ⟨rest, rfl, rfl⟩ | ⟨rest, rfl, rfl⟩
    · exact .inl ⟨before, x, rest, rfl, vanishes, uncovers⟩
    · obtain ⟨first, vanishes⟩ := vanishes_append.mp vanishes
      exact .inr ⟨first, rest, x, after, rfl, vanishes, uncovers⟩
  · rintro (⟨before, x, after, rfl, vanishes, uncovers⟩ | ⟨first, before, x, after, rfl, vanishes,
      uncovers⟩)
    · exact ⟨before, x, after ++ t, by simp, vanishes, uncovers⟩
    · exact ⟨s ++ before, x, after, by simp, vanishes_append.mpr ⟨first, vanishes⟩, uncovers⟩

theorem begins_nonTerminal :
    g.Begins [.nonTerminal x] y ↔ Relation.ReflTransGen g.Uncovers x y := by
  constructor
  · rintro ⟨before, z, after, split, _, uncovers⟩
    obtain ⟨rfl, same⟩ | ⟨_, _, nothing⟩ := List.append_eq_cons_iff.mp split.symm
    · obtain rfl : z = x := by simpa using (List.cons.inj same).1
      exact uncovers
    · simp at nothing
  · exact fun uncovers => ⟨[], x, [], rfl, ⟨[], .refl, rfl⟩, uncovers⟩

theorem Begins.of_body (member : rule ∈ g.rules) (begins : g.Begins rule.body y) :
    Relation.TransGen g.Uncovers rule.head y := by
  obtain ⟨before, x, after, body, vanishes, uncovers⟩ := begins
  exact .head' ⟨before, rule, member, rfl, ⟨after, body⟩, vanishes⟩ uncovers

/-- A step adds nothing to what a sentence begins with: what the new body begins with its head
uncovers, and where the body can vanish so can the head. -/
theorem Begins.of_step (step : g.Step s t) (begins : g.Begins t y) : g.Begins s y := by
  obtain ⟨rule, member, front, back, rfl, rfl⟩ := step
  rw [List.append_assoc, begins_append, begins_append] at begins
  rw [← List.singleton_append, begins_append, begins_append, begins_nonTerminal]
  refine begins.imp_right (And.imp_right fun later => later.imp ?_ (And.imp_left ?_))
  · exact fun inside => (Begins.of_body member inside).to_reflTransGen
  · exact Vanishes.of_body member

theorem Begins.of_visible (first : t.visible = .nonTerminal y :: rest) : g.Begins t y := by
  obtain ⟨before, after, rfl, hidden, _⟩ := List.filter_eq_cons_iff.mp first
  exact ⟨before, y, after, rfl, ⟨before, .refl, List.filter_eq_nil_iff.mpr hidden⟩, .refl⟩

theorem Begins.of_derives (derives : g.Derives s t) (begins : g.Begins t y) : g.Begins s y := by
  induction derives with
  | refl => exact begins
  | tail _ step ih => exact ih (begins.of_step step)

/-! Left recursion. -/

theorem Uncovers.derives (uncovers : g.Uncovers x y) : ∃ before after : Sentence,
    Relation.TransGen g.Step [.nonTerminal x] (before ++ .nonTerminal y :: after) ∧
      before.visible = [] := by
  obtain ⟨before, rule, member, rfl, ⟨after, body⟩, gone, derives, nothing⟩ := uncovers
  have step := step_nonTerminal.mpr ⟨rule, member, rfl, body.symm⟩
  exact ⟨gone, after, .head' step (Derives.append derives .refl), nothing⟩

theorem derives_of_uncovers (uncovers : Relation.TransGen g.Uncovers x y) :
    ∃ before after : Sentence,
      Relation.TransGen g.Step [.nonTerminal x] (before ++ .nonTerminal y :: after) ∧
        before.visible = [] := by
  induction uncovers with
  | single uncovers => exact uncovers.derives
  | @tail y z _ uncovers ih =>
    obtain ⟨before, after, derives, nothing⟩ := ih
    obtain ⟨before', after', further, nothing'⟩ := uncovers.derives
    have inside : Relation.TransGen g.Step (before ++ [.nonTerminal y] ++ after)
        (before ++ (before' ++ .nonTerminal z :: after') ++ after) :=
      (further.lift (before ++ ·) fun _ _ step => step.append_left before).lift
        (· ++ after) fun _ _ step => step.append_right after
    refine ⟨before ++ before', after' ++ after, derives.trans ?_, by simp [nothing, nothing']⟩
    simpa using inside

/-- A non-terminal is left-recursive if and only if bodies uncover it from itself. -/
theorem leftRecursive_iff : g.LeftRecursive x ↔ Relation.TransGen g.Uncovers x x := by
  constructor
  · rintro ⟨s, rest, derives, first⟩
    obtain ⟨t, step, derives⟩ := Relation.TransGen.head'_iff.mp derives
    have begins := Begins.of_derives derives (.of_visible first)
    obtain ⟨rule, member, rfl, rfl⟩ := step_nonTerminal.mp step
    exact Begins.of_body member begins
  · intro uncovers
    obtain ⟨before, after, derives, nothing⟩ := derives_of_uncovers uncovers
    exact ⟨_, after.visible, derives, by simp [nothing]⟩

/-! Left recursion that shows. -/

/-- The symbol that a derived sentence begins with, ε counted, is found along leading symbols. -/
theorem leads_of_derives (derives : g.Derives s t) (first : t.head? = some (.nonTerminal y)) :
    ∃ x, s.head? = some (.nonTerminal x) ∧ Relation.ReflTransGen g.Leads x y := by
  induction derives generalizing y with
  | refl => exact ⟨y, first, .refl⟩
  | tail _ step ih =>
    obtain ⟨rule, member, before, after, rfl, rfl⟩ := step
    cases before with
    | nil =>
      have lead : rule.lead = .nonTerminal y := by simpa [Rule.body] using first
      obtain ⟨x, begins, leads⟩ := ih rfl
      exact ⟨x, begins, leads.tail ⟨rule, member, rfl, lead⟩⟩
    | cons a before => exact ih (by simpa using first)

/-- Where no head leads back to itself, none derives a sentence that begins with it as it is. -/
theorem Acyclic.head?_ne (acyclic : g.Acyclic)
    (derives : Relation.TransGen g.Step [.nonTerminal x] s) : s.head? ≠ some (.nonTerminal x) := by
  intro first
  obtain ⟨t, step, derives⟩ := Relation.TransGen.head'_iff.mp derives
  obtain ⟨y, begins, leads⟩ := leads_of_derives derives first
  obtain ⟨rule, member, rfl, rfl⟩ := step_nonTerminal.mp step
  exact acyclic _ (.head' ⟨rule, member, rfl, Option.some.inj begins⟩ leads)

/-- Where no head leads back to itself, a circle goes past a symbol that vanishes. -/
theorem Acyclic.exists_leadsPast (acyclic : g.Acyclic)
    (around : Relation.TransGen g.Uncovers x x) : ∃ before y z, before ≠ [] ∧
      g.LeadsPast before y z ∧ Relation.ReflTransGen g.Uncovers x y ∧
        Relation.ReflTransGen g.Uncovers z x := by
  by_contra none
  have plain {y z : Name} (there : Relation.ReflTransGen g.Uncovers x y)
      (uncovers : g.Uncovers y z) (back : Relation.ReflTransGen g.Uncovers z x) : g.Leads y z := by
    obtain ⟨before, past⟩ := uncovers
    obtain rfl : before = [] := by
      by_contra some
      exact none ⟨before, y, z, some, past, there, back⟩
    obtain ⟨rule, member, head, ⟨after, body⟩, _⟩ := past
    exact ⟨rule, member, head, (List.cons.inj body).1⟩
  suffices leads : ∀ y, Relation.TransGen g.Uncovers x y → Relation.ReflTransGen g.Uncovers y x →
      Relation.TransGen g.Leads x y from acyclic x (leads x around .refl)
  intro y there
  induction there with
  | single uncovers => exact fun back => .single (plain .refl uncovers back)
  | tail there uncovers ih =>
    exact fun back => (ih (back.head uncovers)).tail (plain there.to_reflTransGen uncovers back)

end Grammar
end Ebnf
