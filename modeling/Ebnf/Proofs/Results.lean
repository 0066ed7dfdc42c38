import Mathlib.Data.List.Forall2

/-! Computations that can fail: what it takes for one after another, or for one on each element of a
list, to succeed, and how lists of arguments and of results relate. -/
namespace Ebnf

variable {α β γ ε : Type}

/-! Success and failure. -/

theorem bind_eq_ok {x : Except ε α} {g : α → Except ε β} {b : β} :
    x >>= g = .ok b ↔ ∃ a, x = .ok a ∧ g a = .ok b := by
  cases x <;> simp [bind, Except.bind]

theorem map_eq_ok {x : Except ε α} {f : α → β} {b : β} :
    x.map f = .ok b ↔ ∃ a, x = .ok a ∧ f a = b := by
  cases x <;> simp [Except.map]

section Checks

variable {f : α → Except ε Unit} {xs : List α}

theorem forM_eq_ok : xs.forM f = .ok () ↔ ∀ x ∈ xs, f x = .ok () := by
  induction xs with
  | nil => simp [pure, Except.pure]
  | cons x xs ih =>
    change (f x >>= fun _ => xs.forM f) = .ok () ↔ _
    rw [List.forall_mem_cons, ← ih]
    cases f x <;> simp [bind, Except.bind]

/-- A list of checks fails as one of them does. -/
theorem exists_of_forM_eq_error {e : ε} (failed : xs.forM f = .error e) :
    ∃ x ∈ xs, f x = .error e := by
  induction xs with
  | nil => cases failed
  | cons x xs ih =>
    change (f x >>= fun _ => xs.forM f) = .error e at failed
    cases first : f x with
    | error _ =>
      rw [first] at failed
      cases failed
      exact ⟨x, List.mem_cons_self, first⟩
    | ok =>
      rw [first] at failed
      obtain ⟨y, listed, found⟩ := ih failed
      exact ⟨y, List.mem_cons_of_mem x listed, found⟩

end Checks

/-! Lists of arguments and of results. -/

section Lists

variable {f : α → Except ε β} {R R' : α → β → Prop} {S : β → γ → Prop} {xs : List α} {ys : List β}

/-- A list is gone through with success if every element is. -/
theorem mapM_eq_ok : xs.mapM f = .ok ys ↔ List.Forall₂ (fun x y => f x = .ok y) xs ys := by
  induction xs generalizing ys with
  | nil => simp [pure, Except.pure, eq_comm]
  | cons x xs ih =>
    simp only [List.mapM_cons, bind_eq_ok, pure, Except.pure, Except.ok.injEq, ih,
      List.forall₂_cons_left_iff]
    constructor
    · rintro ⟨y, first, rest, later, rfl⟩
      exact ⟨y, rest, first, later, rfl⟩
    · rintro ⟨y, rest, first, later, rfl⟩
      exact ⟨y, first, rest, later, rfl⟩

theorem exists_of_forall₂ {y : β} (related : List.Forall₂ R xs ys) (member : y ∈ ys) :
    ∃ x ∈ xs, R x y := by
  induction related with
  | nil => cases member
  | @cons x _ xs _ first rest ih =>
    rcases List.mem_cons.mp member with rfl | later
    · exact ⟨x, List.mem_cons_self, first⟩
    · obtain ⟨x', listed, found⟩ := ih later
      exact ⟨x', List.mem_cons_of_mem x listed, found⟩

theorem exists_of_forall₂_left {x : α} (related : List.Forall₂ R xs ys) (member : x ∈ xs) :
    ∃ y ∈ ys, R x y := by
  have flipped : List.Forall₂ (flip R) ys xs := List.Forall₂.flip related
  exact exists_of_forall₂ flipped member

/-- What relates to the results of a computation relates to its arguments. -/
theorem forall₂_results {zs : List γ} (made : List.Forall₂ (fun x y => f x = .ok y) xs ys) :
    List.Forall₂ S ys zs ↔ List.Forall₂ (fun x z => ∃ y, f x = .ok y ∧ S y z) xs zs := by
  induction made generalizing zs with
  | nil => simp
  | @cons x y xs ys first rest ih =>
    simp [List.forall₂_cons_left_iff, ih, first]

theorem forall₂_of_forall (each : ∀ x ∈ xs, ∃ y, R x y) : ∃ ys, List.Forall₂ R xs ys := by
  induction xs with
  | nil => exact ⟨[], .nil⟩
  | cons x xs ih =>
    obtain ⟨y, first⟩ := each x List.mem_cons_self
    obtain ⟨ys, rest⟩ := ih fun x later => each x (List.mem_cons_of_mem _ later)
    exact ⟨y :: ys, .cons first rest⟩

theorem forall₂_iff_of_iff (same : ∀ x ∈ xs, ∀ y, R x y ↔ R' x y) :
    List.Forall₂ R xs ys ↔ List.Forall₂ R' xs ys := by
  induction xs generalizing ys with
  | nil => simp
  | cons x xs ih =>
    have rest {ys : List β} : List.Forall₂ R xs ys ↔ List.Forall₂ R' xs ys :=
      ih fun x later => same x (List.mem_cons_of_mem _ later)
    simp only [List.forall₂_cons_left_iff, same x List.mem_cons_self, rest]

end Lists

end Ebnf
