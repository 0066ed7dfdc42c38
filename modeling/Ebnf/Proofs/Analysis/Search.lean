import Mathlib.Logic.Relation

/-! Searches that take each place only once. A search keeps the places that are still pending, and
finds what it can reach through these. When some of them are struck off, what was to be found
through them is found from one of those struck off. -/
namespace Ebnf

variable {α : Type} {step : α → α → Prop} {pending found left : List α} {x y z : α}

/-- `Through step pending x y` says that steps to pending places lead from `x` to `y`. -/
def Through (step : α → α → Prop) (pending : List α) : α → α → Prop :=
  Relation.ReflTransGen fun a b => step a b ∧ b ∈ pending

namespace Through

theorem mono (h : Through step left x y) (wider : ∀ a ∈ left, a ∈ pending) :
    Through step pending x y :=
  Relation.ReflTransGen.mono (fun _ b stepped => ⟨stepped.1, wider b stepped.2⟩) _ _ h

/-- The walk is cut at the last of the places that are no longer pending. -/
theorem avoid (h : Through step pending x y) (parts : ∀ a ∈ pending, a ∈ found ∨ a ∈ left) :
    Through step left x y ∨ ∃ f ∈ found, Through step left f y := by
  induction h with
  | refl => exact .inl .refl
  | @tail b c _ last ih =>
    obtain ⟨stepped, member⟩ := last
    rcases parts c member with here | later
    · exact .inr ⟨c, here, .refl⟩
    · rcases ih with direct | ⟨f, listed, through⟩
      · exact .inl (direct.tail ⟨stepped, later⟩)
      · exact .inr ⟨f, listed, through.tail ⟨stepped, later⟩⟩

theorem avoid_erase [DecidableEq α] (h : Through step pending x y) (n : α) :
    Through step (pending.erase n) x y ∨ Through step (pending.erase n) n y := by
  have parts : ∀ a ∈ pending, a ∈ [n] ∨ a ∈ pending.erase n := by
    intro a member
    by_cases same : a = n
    · exact .inl (List.mem_singleton.mpr same)
    · exact .inr ((List.mem_erase_of_ne same).mpr member)
  simpa using h.avoid parts

theorem reaches (h : Through step pending x y) : Relation.ReflTransGen step x y :=
  Relation.ReflTransGen.mono (fun _ _ stepped => stepped.1) _ _ h

end Through

/-- A search that starts at a place need not come back to it. -/
theorem through_erase_iff [DecidableEq α] (known : ∀ a b, step a b → b ∈ pending) :
    Through step (pending.erase x) x y ↔ Relation.ReflTransGen step x y := by
  constructor
  · exact Through.reaches
  · intro h
    have wide : Through step pending x y :=
      Relation.ReflTransGen.mono (fun a b stepped => ⟨stepped, known a b stepped⟩) _ _ h
    exact (wide.avoid_erase x).elim id id

end Ebnf
