import Mathlib.Data.List.Nodup
import Mathlib.Data.List.Perm.Subperm

/-! Chains of steps of a relation, by their length. Among finitely many points a chain that is not
shorter than there are points comes back to a point, so it goes around a circle that is no
longer. -/
namespace Ebnf

variable {α : Type} {R S : α → α → Prop} {a b c x : α} {k bound : Nat}

/-- `Chain R k a b` says that `k` steps of the relation lead from `a` to `b`. -/
inductive Chain (R : α → α → Prop) : Nat → α → α → Prop where
  | nil {a : α} : Chain R 0 a a
  | cons {k : Nat} {a b c : α} (step : R a b) (rest : Chain R k b c) : Chain R (k + 1) a c

/-- Some chain of at most some length leads from a point back to it. -/
def HasCircle (R : α → α → Prop) (bound : Nat) : Prop :=
  ∃ k ≤ bound, 0 < k ∧ ∃ a, Chain R k a a

theorem HasCircle.mono {more : Nat} (circle : HasCircle R bound) (le : bound ≤ more) :
    HasCircle R more := by
  obtain ⟨k, short, around⟩ := circle
  exact ⟨k, Nat.le_trans short le, around⟩

namespace Chain

theorem mono (weaker : ∀ a b, R a b → S a b) (chain : Chain R k a b) : Chain S k a b := by
  induction chain with
  | nil => exact .nil
  | cons step _ ih => exact .cons (weaker _ _ step) ih

theorem concat (chain : Chain R k a b) (step : R b c) : Chain R (k + 1) a c := by
  induction chain with
  | nil => exact .cons step .nil
  | cons first _ ih => exact .cons first (ih step)

/-- A circle of steps between different points can be gone around from a point other than a given
one. -/
theorem exists_other_start (apart : ∀ a b, R a b → a ≠ b) (around : Chain R k a a) (some : 0 < k)
    (x : α) : ∃ b ≠ x, Chain R k b b := by
  by_cases same : a = x
  · cases around with
    | nil => cases some
    | @cons _ _ b _ step rest => exact ⟨b, same ▸ (apart a b step).symm, rest.concat step⟩
  · exact ⟨a, same, around⟩

/-- A chain in a finite set comes back to a point, or goes through a point more than it has steps.
Each of these is less than their number of steps away from the start. -/
theorem circle_or_nodup {points : List α} (within : ∀ a b, R a b → b ∈ points)
    (chain : Chain R k a b) (start : a ∈ points) : HasCircle R points.length ∨
      ∃ seen : List α, seen.Nodup ∧ seen.length = k + 1 ∧
        ∀ x ∈ seen, x ∈ points ∧ ∃ j < seen.length, Chain R j a x := by
  induction chain with
  | @nil a => exact .inr ⟨[a], by simp, rfl, by simpa using ⟨start, .nil⟩⟩
  | @cons k a b c step rest ih =>
    rcases ih (within a b step) with circle | ⟨seen, apart, length, near⟩
    · exact .inl circle
    by_cases again : a ∈ seen
    · obtain ⟨_, j, less, chain⟩ := near a again
      have fewer : seen.length ≤ points.length :=
        (List.subperm_of_subset apart fun x inside => (near x inside).1).length_le
      exact .inl ⟨j + 1, by omega, by omega, a, .cons step chain⟩
    · refine .inr ⟨a :: seen, List.nodup_cons.mpr ⟨again, apart⟩, by simp [length], ?_⟩
      intro x inside
      rcases List.mem_cons.mp inside with rfl | inside
      · exact ⟨start, 0, by simp, .nil⟩
      · obtain ⟨member, j, less, chain⟩ := near x inside
        exact ⟨member, j + 1, by simpa using less, .cons step chain⟩

/-- A chain is shorter than there are points, unless there is a circle that is no longer. -/
theorem lt_or_circle {points : List α} (within : ∀ a b, R a b → b ∈ points)
    (chain : Chain R k a b) (start : a ∈ points) :
    k < points.length ∨ HasCircle R points.length := by
  rcases chain.circle_or_nodup within start with circle | ⟨seen, apart, length, near⟩
  · exact .inr circle
  · have fewer : seen.length ≤ points.length :=
      (List.subperm_of_subset apart fun x inside => (near x inside).1).length_le
    exact .inl (by omega)

end Chain

theorem HasCircle.weaken (circle : HasCircle R bound) (weaker : ∀ a b, R a b → S a b) :
    HasCircle S bound := by
  obtain ⟨k, short, some, a, around⟩ := circle
  exact ⟨k, short, some, a, around.mono weaker⟩

end Ebnf
