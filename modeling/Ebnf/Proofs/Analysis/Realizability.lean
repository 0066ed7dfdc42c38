import Ebnf.Analysis.Realizability
import Ebnf.Proofs.Language.Interpretation
import Ebnf.Proofs.Lookup

/-! Saturation takes in what has to hold and nothing else, so the realizable heads are those that
spell a word. -/
namespace Ebnf

section Saturation

variable {α : Type} {supports : List α → α → Bool} {candidates known : List α} {c : α}

theorem subset_saturate : ∀ k ∈ known, k ∈ saturate supports candidates known := by
  fun_induction saturate supports candidates known with
  | case1 candidates known _ ih =>
    simp only [List.unattach_filter, List.unattach_attach] at ih
    exact fun k member => ih k (List.mem_append_left _ member)
  | case2 => exact fun k member => member

/-- A candidate that what was found supports is found. -/
theorem mem_saturate_of_supports (member : c ∈ candidates)
    (supported : supports (saturate supports candidates known) c = true) :
    c ∈ saturate supports candidates known := by
  fun_induction saturate supports candidates known with
  | case1 candidates known _ ih =>
    simp only [List.unattach_filter, List.unattach_attach] at ih
    by_cases now : supports known c = true
    · exact subset_saturate c (List.mem_append_right _ (List.mem_filter.mpr ⟨member, now⟩))
    · exact ih (List.mem_filter.mpr ⟨member, by simpa using now⟩) supported
  | case2 candidates known none =>
    exact absurd (List.any_eq_true.mpr ⟨c, member, supported⟩) none

/-- What is found has every property that support hands on. -/
theorem saturate_sound {P : α → Prop} (step : ∀ known c, c ∈ candidates → (∀ k ∈ known, P k) →
    supports known c = true → P c) (initial : ∀ k ∈ known, P k) :
    ∀ k ∈ saturate supports candidates known, P k := by
  fun_induction saturate supports candidates known with
  | case1 candidates known _ ih =>
    simp only [List.unattach_filter, List.unattach_attach] at ih
    refine ih (fun known c member => step known c (List.mem_filter.mp member).1) fun k listed => ?_
    rcases List.mem_append.mp listed with old | new
    · exact initial k old
    · obtain ⟨member, supported⟩ := List.mem_filter.mp new
      exact step known k member initial supported
  | case2 => exact initial

theorem nodup_saturate (apart : (known ++ candidates).Nodup) :
    (saturate supports candidates known).Nodup := by
  fun_induction saturate supports candidates known with
  | case1 candidates known _ ih =>
    simp only [List.unattach_filter, List.unattach_attach] at ih
    -- a round only moves candidates over
    have moved : (known ++ candidates.filter (supports known) ++
        unsupported supports known candidates).Perm (known ++ candidates) := by
      rw [List.append_assoc]
      exact (List.filter_append_perm (supports known) candidates).append_left known
    exact ih (moved.nodup_iff.mpr apart)
  | case2 candidates known _ => exact (List.nodup_append.mp apart).1

end Saturation

namespace Interpretation

variable {I : Interpretation} {s : Sentence} {w : List Terminal} {n : Name}

theorem Reads.exists_of_mem (read : I.Reads s w) (occurs : .nonTerminal n ∈ s) : ∃ u, I n u := by
  obtain ⟨before, after, rfl⟩ := List.append_of_mem occurs
  obtain ⟨_, _, _, _, back⟩ := reads_append.mp read
  obtain ⟨u, _, _, here, _⟩ := reads_cons.mp back
  exact ⟨u, reads_nonTerminal.mp here⟩

theorem exists_reads_of_plain (plain : s.hasShorthand = false)
    (meant : ∀ n, .nonTerminal n ∈ s → ∃ u, I n u) : ∃ w, I.Reads s w := by
  induction s with
  | nil => exact ⟨[], .nil⟩
  | cons a s ih =>
    rw [Sentence.plain_cons] at plain
    obtain ⟨w, read⟩ := ih plain.2 fun n later => meant n (List.mem_cons_of_mem _ later)
    cases a with
    | terminal t => exact ⟨t :: w, .terminal read⟩
    | epsilon => exact ⟨w, .epsilon read⟩
    | nonTerminal n =>
      obtain ⟨u, known⟩ := meant n List.mem_cons_self
      exact ⟨u ++ w, .nonTerminal known read⟩
    | bracket | alternative => simp [Symbol.isShorthand] at plain

end Interpretation

namespace Grammar

open Interpretation

variable {g : Grammar} {head : Name}

theorem realizableIn_iff {known : List Name} {s : Sentence} :
    s.realizableIn known = true ↔ ∀ n, .nonTerminal n ∈ s → n ∈ known := by
  simp only [Sentence.realizableIn, List.all_eq_true]
  constructor
  · intro all n occurs
    simpa [Symbol.name?] using all _ occurs
  · intro all a occurs
    cases a with
    | nonTerminal n => simpa [Symbol.name?] using all n occurs
    | _ => rfl

theorem realizable_eq_ok (plain : g.hasShorthand = false) :
    g.realizable = .ok g.realizableHeads := by
  rw [realizable, requirePlain_eq_ok.mpr plain]
  rfl

theorem nodup_realizableHeads : g.realizableHeads.Nodup :=
  nodup_saturate (by simpa using nodup_heads)

theorem mem_realizableHeads (plain : g.hasShorthand = false) :
    head ∈ g.realizableHeads ↔ ∃ w, g.Spells head w := by
  constructor
  · intro found
    refine saturate_sound (P := fun n => ∃ w, g.Spells n w) ?_ (by simp) head found
    intro known c _ spelled supported
    obtain ⟨rule, listed, inside⟩ := List.any_eq_true.mp supported
    obtain ⟨member, rfl⟩ := mem_rulesOf.mp listed
    obtain ⟨w, read⟩ : ∃ w, g.meaning.Reads rule.body w :=
      exists_reads_of_plain (plain_of_mem plain member) fun n occurs =>
        spelled n (realizableIn_iff.mp inside n occurs)
    exact ⟨w, g.meaning_models rule member w read⟩
  · rintro ⟨w, spelled⟩
    refine spells_least (I := fun n _ => n ∈ g.realizableHeads) ?_ spelled
    intro rule member w read
    refine mem_saturate_of_supports (head_mem_heads member) (List.any_eq_true.mpr ?_)
    refine ⟨rule, mem_rulesOf.mpr ⟨member, rfl⟩, realizableIn_iff.mpr fun n occurs => ?_⟩
    obtain ⟨_, found⟩ := read.exists_of_mem occurs
    exact found

end Grammar
end Ebnf
