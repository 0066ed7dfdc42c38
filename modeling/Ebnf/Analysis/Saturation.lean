/-! Saturation: the least set of facts that is closed under a notion of support, grown from
candidates in rounds. A round takes in every candidate that the facts known so far support. -/
namespace Ebnf

variable {α : Type} (supports : List α → α → Bool)

/-- The candidates that the known facts do not support. -/
def unsupported (known candidates : List α) : List α :=
  candidates.filter (fun c => !supports known c)

theorem length_unsupported_lt {known candidates : List α}
    (h : candidates.any (supports known) = true) :
    (unsupported supports known candidates).length < candidates.length := by
  obtain ⟨c, hc, hs⟩ := List.any_eq_true.1 h
  exact List.length_filter_lt_length_iff_exists.2 ⟨c, hc, by simp [hs]⟩

/-- Adds supported candidates to the known facts until none of those left is supported. -/
def saturate (candidates known : List α) : List α :=
  if candidates.any (supports known) then
    saturate (unsupported supports known candidates) (known ++ candidates.filter (supports known))
  else known
  termination_by candidates.length
  decreasing_by exact length_unsupported_lt supports ‹_›

end Ebnf
