import Ebnf.Proofs.Language.Derivations
import Ebnf.Proofs.Lookup

/-! What a derived sentence can begin with. Sentences one behind the other derive independently, so
a terminal opens what is derived from them if it opens what the first derives, or what the second
derives where the first can vanish. -/
namespace Ebnf.Grammar

variable {g : Grammar} {s t u : Sentence} {a : Symbol} {x y : Terminal} {n : Name}

/-! Where derived symbols come from. -/

/-- Only non-terminals give way. -/
theorem Derives.eq_of_fixed (derives : g.Derives s t) (fixed : ∀ n, .nonTerminal n ∉ s) :
    t = s := by
  induction derives with
  | refl => rfl
  | tail _ step ih =>
    subst ih
    obtain ⟨rule, _, before, after, rfl, _⟩ := step
    exact absurd (List.mem_append_right _ List.mem_cons_self) (fixed rule.head)

theorem Derives.of_mem (derives : g.Derives s t) (member : a ∈ t) :
    a ∈ s ∨ ∃ rule ∈ g.rules, a ∈ rule.body := by
  induction derives with
  | refl => exact .inl member
  | tail _ step ih =>
    obtain ⟨rule, listed, before, after, rfl, rfl⟩ := step
    simp only [List.mem_append] at member
    rcases member with (earlier | inside) | later
    · exact ih (List.mem_append_left _ earlier)
    · exact .inr ⟨rule, listed, inside⟩
    · exact ih (List.mem_append_right _ (List.mem_cons_of_mem _ later))

theorem mem_terminals : x ∈ g.terminals ↔ ∃ rule ∈ g.rules, .terminal x ∈ rule.body := by
  have named {b : Symbol} : b.terminal? = some x ↔ b = .terminal x := by
    cases b <;> simp [Symbol.terminal?]
  simp [terminals, List.mem_eraseDups, named]

theorem Step.plain (plain : g.hasShorthand = false) (step : g.Step s t)
    (before : s.hasShorthand = false) : t.hasShorthand = false := by
  refine List.any_eq_false.mpr fun a member => ?_
  rcases Derives.of_mem (.single step) member with old | ⟨rule, listed, inside⟩
  · exact List.any_eq_false.mp before a old
  · exact List.any_eq_false.mp (plain_of_mem plain listed) a inside

/-! Sentences that vanish. -/

theorem Vanishes.of_derives (derives : g.Derives s t) (vanishes : g.Vanishes t) :
    g.Vanishes s := by
  obtain ⟨u, further, nothing⟩ := vanishes
  exact ⟨u, derives.trans further, nothing⟩

@[simp] theorem vanishes_nil : g.Vanishes [] := ⟨[], .refl, rfl⟩

@[simp] theorem vanishes_epsilon : g.Vanishes [.epsilon] := ⟨_, .refl, by simp [Sentence.visible]⟩

@[simp] theorem not_vanishes_terminal : ¬ g.Vanishes [.terminal x] := by
  rintro ⟨t, derives, nothing⟩
  rw [derives.eq_of_fixed (by simp)] at nothing
  simp [Sentence.visible] at nothing

theorem vanishes_cons : g.Vanishes (a :: s) ↔ g.Vanishes [a] ∧ g.Vanishes s :=
  vanishes_append (s := [a])

/-! Sentences that a terminal opens. -/

theorem Opens.of_derives (derives : g.Derives s t) (opens : g.Opens t x) : g.Opens s x := by
  obtain ⟨u, rest, further, first⟩ := opens
  exact ⟨u, rest, derives.trans further, first⟩

theorem opens_append : g.Opens (s ++ t) x ↔ g.Opens s x ∨ g.Vanishes s ∧ g.Opens t x := by
  constructor
  · rintro ⟨u, rest, derives, first⟩
    obtain ⟨s', t', left, right, rfl⟩ := derives.of_append
    rw [Sentence.visible_append] at first
    rcases List.append_eq_cons_iff.mp first with ⟨nothing, later⟩ | ⟨rest', here, _⟩
    · exact .inr ⟨⟨s', left, nothing⟩, t', rest, right, later⟩
    · exact .inl ⟨s', rest', left, here⟩
  · rintro (⟨s', rest, left, first⟩ | ⟨⟨s', left, nothing⟩, t', rest, right, first⟩)
    · exact ⟨s' ++ t, rest ++ t.visible, left.append .refl, by simp [first]⟩
    · exact ⟨s' ++ t', rest, left.append right, by simp [nothing, first]⟩

theorem opens_cons : g.Opens (a :: s) x ↔ g.Opens [a] x ∨ g.Vanishes [a] ∧ g.Opens s x :=
  opens_append (s := [a])

@[simp] theorem not_opens_nil : ¬ g.Opens [] x := by
  rintro ⟨u, rest, derives, first⟩
  simp [derives.eq_of_fixed, Sentence.visible] at first

@[simp] theorem not_opens_epsilon : ¬ g.Opens [.epsilon] x := by
  rintro ⟨u, rest, derives, first⟩
  rw [derives.eq_of_fixed (by simp)] at first
  simp [Sentence.visible] at first

@[simp] theorem opens_terminal : g.Opens [.terminal y] x ↔ y = x := by
  constructor
  · rintro ⟨u, rest, derives, first⟩
    rw [derives.eq_of_fixed (by simp)] at first
    have same : y = x ∧ rest = [] := by simpa [Sentence.visible, eq_comm] using first
    exact same.1
  · rintro rfl
    exact ⟨_, [], .refl, by simp [Sentence.visible]⟩

theorem Opens.mem (opens : g.Opens s x) : .terminal x ∈ s ∨ x ∈ g.terminals := by
  obtain ⟨u, rest, derives, first⟩ := opens
  have visible : .terminal x ∈ u.visible := first ▸ List.mem_cons_self
  exact (derives.of_mem (List.mem_filter.mp visible).1).imp_right mem_terminals.mpr

/-- What opens a non-terminal comes from a body. -/
theorem Opens.mem_terminals (opens : g.Opens [.nonTerminal n] x) : x ∈ g.terminals :=
  opens.mem.resolve_left (by simp)

end Ebnf.Grammar
