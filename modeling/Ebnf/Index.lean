/-! Indices into a list. One below zero counts from the end, so that -1 is the last place. And
elements that stand some places apart. -/
namespace Ebnf

/-- The place that an index means in a list of the given length. -/
def place? (index : Int) (length : Nat) : Option Nat :=
  let i := if index < 0 then index + length else index
  if 0 ≤ i ∧ i < length then some i.toNat else none

def elementAt? {α : Type} (xs : List α) (index : Int) : Option α := do
  xs[← place? index xs.length]?

/-- The elements that stand a number of places apart, the first of them behind those skipped. -/
def everyNth {α : Type} (apart : Nat) : (skipped : Nat) → List α → List α
  | _, [] => []
  | 0, x :: xs => x :: everyNth apart (apart - 1) xs
  | skipped + 1, _ :: xs => everyNth apart skipped xs

theorem getElem?_everyNth {α : Type} {apart : Nat} (positive : 0 < apart) (skipped : Nat)
    (xs : List α) (i : Nat) : (everyNth apart skipped xs)[i]? = xs[skipped + i * apart]? := by
  induction xs generalizing skipped i with
  | nil => simp [everyNth]
  | cons x xs ih =>
    cases skipped with
    | succ skipped =>
      rw [everyNth, ih, Nat.add_right_comm, List.getElem?_cons_succ]
    | zero =>
      cases i with
      | zero => simp [everyNth]
      | succ i =>
        have next : 0 + (i + 1) * apart = apart - 1 + i * apart + 1 := by
          rw [Nat.succ_mul]
          omega
        rw [everyNth, List.getElem?_cons_succ, ih, next, List.getElem?_cons_succ]

end Ebnf
