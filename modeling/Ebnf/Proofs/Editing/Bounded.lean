import Ebnf.Proofs.Editing.Idempotent

/-! Loops that end within their limit. A loop over a list succeeds if each of its steps does where
the steps before it lead. A loop that repeats a step ends if every round that does not settle lowers
a bound, and if the limit admits more rounds than the bound that holds at the beginning. -/
namespace Ebnf.Editing

variable {α β σ : Type} {g g' : Grammar} {a : α}

/-- A loop over a list, with what holds of the grammar and of the elements still to come. -/
theorem exists_leaves_forM {f : β → Editing Unit} (inv : List β → Grammar → Prop) {xs : List β}
    (step : ∀ x rest g, inv (x :: rest) g → ∃ g', (f x).Leaves g () g' ∧ inv rest g')
    (initial : inv xs g) : ∃ g', (xs.forM f).Leaves g () g' ∧ inv [] g' := by
  induction xs generalizing g with
  | nil => exact ⟨g, leaves_pure.mpr ⟨rfl, rfl⟩, initial⟩
  | cons x xs ih =>
    obtain ⟨middle, first, kept⟩ := step x xs g initial
    obtain ⟨g', rest, left⟩ := ih kept
    exact ⟨g', leaves_bind_unit.mpr ⟨middle, first, rest⟩, left⟩

/-- Each round succeeds, and one that does not settle lowers the bound. -/
def Lowers (step : σ → Editing (Progress σ)) (bounded : Nat → σ → Grammar → Prop) : Prop :=
  ∀ k s g, bounded k s g → ∃ told g', (step s).Leaves g told g' ∧
    ∀ next, told = .unsettled next → ∃ j < k, bounded j next g'

theorem Lowers.settleWithin {step : σ → Editing (Progress σ)} {bounded : Nat → σ → Grammar → Prop}
    {e : Failure} {s : σ} {k rounds : Nat} (lowers : Lowers step bounded)
    (initial : bounded k s g) (enough : k < rounds) :
    ∃ last g', (settleWithin e step rounds s).Leaves g last g' := by
  induction rounds generalizing k s g with
  | zero => cases enough
  | succ rounds ih =>
    obtain ⟨told, g', first, lower⟩ := lowers k s g initial
    cases told with
    | settled last => exact ⟨last, g', leaves_bind.mpr ⟨_, g', first, leaves_pure.mpr ⟨rfl, rfl⟩⟩⟩
    | unsettled next =>
      obtain ⟨j, less, bound⟩ := lower next rfl
      obtain ⟨last, g'', rest⟩ := ih bound (by omega)
      exact ⟨last, g'', leaves_bind.mpr ⟨_, g', first, rest⟩⟩

theorem Lowers.settle {step : σ → Editing (Progress σ)} {bounded : Nat → σ → Grammar → Prop}
    {loop : Loop} {limit : Document} {s : σ} {k : Nat} {rounds : Int}
    (lowers : Lowers step bounded) (initial : bounded k s g) (whole : limit.whole? = some rounds)
    (enough : (k : Int) < rounds) : ∃ last g', (settle loop limit step s).Leaves g last g' := by
  rw [Editing.settle, whole]
  exact lowers.settleWithin initial (by omega)

/-- The same for a round that only tells whether it settles. -/
def Descends (step : Editing Bool) (bounded : Nat → Grammar → Prop) : Prop :=
  ∀ k g, bounded k g → ∃ settled g', step.Leaves g settled g' ∧
    (settled = false → ∃ j < k, bounded j g')

theorem Descends.lowers {step : Editing Bool} {bounded : Nat → Grammar → Prop}
    (descends : Descends step bounded) : Lowers (progress step) fun k _ => bounded k := by
  intro k _ g initial
  obtain ⟨settled, g', left, lower⟩ := descends k g initial
  refine ⟨if settled then .settled () else .unsettled (), g',
    leaves_bind.mpr ⟨settled, g', left, leaves_pure.mpr ⟨rfl, rfl⟩⟩, ?_⟩
  cases settled with
  | true => simp
  | false => exact fun _ _ => lower rfl

theorem Descends.repeatUntil {step : Editing Bool} {bounded : Nat → Grammar → Prop} {loop : Loop}
    {limit : Document} {k : Nat} {rounds : Int} (descends : Descends step bounded)
    (initial : bounded k g) (whole : limit.whole? = some rounds) (enough : (k : Int) < rounds) :
    (repeatUntil loop limit step g).outcome = .ok () := by
  obtain ⟨_, _, left⟩ := descends.lowers.settle (s := ()) initial whole enough
  exact left.1

/-- A transformation that repeats such a round succeeds, on a grammar that it may be done to. -/
theorem Descends.perform {step : Editing Bool} {bounded : Nat → Grammar → Prop}
    {kind : Transformation} {limit : Document} {k : Nat} {rounds : Int}
    (descends : Descends step bounded) (plain : kind ≠ .shorthand → g.hasShorthand = false)
    (initial : bounded k g) (whole : limit.whole? = some rounds) (enough : (k : Int) < rounds) :
    ∃ g', (perform kind (Editing.repeatUntil (.single kind) limit step)).Leaves g () g' :=
  ⟨_, leaves_perform.mpr ⟨plain, descends.repeatUntil initial whole enough, rfl⟩⟩

end Ebnf.Editing
