import Ebnf.Proofs.Editing.Quiet
import Ebnf.Proofs.Language.Bodies

/-! Programs that have nothing left to do once they have succeeded. A loop is left by a step that
settles, so it is enough that a step which settles commits nothing and can be taken again. -/
namespace Ebnf.Editing

open Grammar

variable {α β σ : Type} {among : Transformation → Prop} {g g' : Grammar} {a : α} {b : β}

/-- A program succeeds with a result and leaves a grammar. -/
def Leaves (x : Editing α) (g : Grammar) (a : α) (g' : Grammar) : Prop :=
  (x g).outcome = .ok a ∧ (x g).grammar = g'

/-- A program is idempotent if it commits nothing when it is run again where it has succeeded. -/
def Idempotent (x : Editing Unit) : Prop := ∀ g g', x.Leaves g () g' → x.Quiet g' ()

theorem Leaves.traced {x : Editing α} (left : x.Leaves g a g') (traced : x.Traced among g) :
    Path among g (x g).events g' :=
  left.2 ▸ traced

@[simp] theorem leaves_pure {a' : α} : (pure a : Editing α).Leaves g a' g' ↔ a = a' ∧ g = g' := by
  simp [Leaves]

@[simp] theorem leaves_remark {r : Remark} {u : Unit} : (remark r).Leaves g u g' ↔ g = g' := by
  simp [Leaves]

@[simp] theorem leaves_ofExcept {x : Except Failure α} :
    (ofExcept x).Leaves g a g' ↔ x = .ok a ∧ g = g' := by
  simp [Leaves]

@[simp] theorem not_leaves_fail {e : Failure} : ¬ (fail e : Editing α).Leaves g a g' := by
  simp [Leaves]

theorem leaves_bind {x : Editing α} {f : α → Editing β} {g'' : Grammar} :
    (x >>= f).Leaves g b g'' ↔ ∃ a g', x.Leaves g a g' ∧ (f a).Leaves g' b g'' := by
  constructor
  · rintro ⟨ended, rfl⟩
    obtain ⟨a, first, rest⟩ := outcome_bind_ok ended
    exact ⟨a, _, ⟨first, rfl⟩, rest, by rw [run_bind_ok first]; rfl⟩
  · rintro ⟨a, _, ⟨first, rfl⟩, ended, left⟩
    rw [Leaves, run_bind_ok first]
    exact ⟨ended, left⟩

theorem leaves_bind_unit {x : Editing Unit} {f : Unit → Editing β} {g'' : Grammar} :
    (x >>= f).Leaves g b g'' ↔ ∃ g', x.Leaves g () g' ∧ (f ()).Leaves g' b g'' := by
  rw [leaves_bind]
  exact ⟨fun ⟨_, both⟩ => both, fun both => ⟨(), both⟩⟩

theorem leaves_current_bind {f : Grammar → Editing β} :
    (current >>= f).Leaves g b g' ↔ (f g).Leaves g b g' := Iff.rfl

theorem leaves_remark_bind {r : Remark} {f : Unit → Editing β} :
    (remark r >>= f).Leaves g b g' ↔ (f ()).Leaves g b g' := by
  simp [leaves_bind_unit]

theorem leaves_ofExcept_bind {x : Except Failure α} {f : α → Editing β} :
    (ofExcept x >>= f).Leaves g b g' ↔ ∃ a, x = .ok a ∧ (f a).Leaves g b g' := by
  simp only [leaves_bind, leaves_ofExcept, and_assoc, exists_and_left, exists_eq_left']

theorem leaves_recorded {x : Editing α} {done : α × List Record} :
    x.recorded.Leaves g done g' ↔ x.Leaves g done.1 g' ∧ done.2 = (x g).records := by
  rw [Leaves, recorded_eq_ok, Leaves]
  exact and_right_comm

theorem leaves_perform {kind : Transformation} {work : Editing α} :
    (perform kind work).Leaves g a g' ↔
      (kind ≠ .shorthand → g.hasShorthand = false) ∧ work.Leaves g a g' := by
  have finished : (work.recorded >>= fun done => remark (.done kind done.2.length) >>= fun _ =>
      pure done.1).Leaves g a g' ↔ work.Leaves g a g' := by
    simp only [leaves_bind, leaves_recorded, leaves_remark, leaves_pure]
    constructor
    · rintro ⟨_, _, ⟨left, _⟩, _, _, rfl, rfl, rfl⟩
      exact left
    · exact fun left => ⟨(a, (work g).records), g', ⟨left, rfl⟩, (), g', rfl, rfl, rfl⟩
  unfold perform
  rw [leaves_current_bind]
  split
  · next other =>
    simp only [leaves_ofExcept_bind, mapError_eq_ok, finished]
    constructor
    · rintro ⟨_, plain, left⟩
      exact ⟨fun _ => requirePlain_eq_ok.mp plain, left⟩
    · exact fun ⟨plain, left⟩ => ⟨(), requirePlain_eq_ok.mpr (plain other), left⟩
  · next same => simp [finished, same]

/-- A loop that succeeds has gone round at least once, and what every round keeps held when the
last one began. -/
theorem exists_last_round {I : σ → Grammar → Prop} {loop : Loop} {limit : Document}
    {step : σ → Editing (Progress σ)} {s last : σ} (kept : ∀ s g next g', I s g →
      (step s).Leaves g (.unsettled next) g' → I next g') (initial : I s g)
    (left : (settle loop limit step s).Leaves g last g') :
    Admits limit ∧ ∃ s' g'', I s' g'' ∧ (step s').Leaves g'' (.settled last) g' := by
  unfold settle at left
  split at left
  · next rounds whole =>
    obtain ⟨ended, left⟩ := left
    refine ⟨⟨rounds, whole, ?_⟩, ?_⟩
    · by_contra none
      rw [Int.toNat_of_nonpos (Int.not_lt.mp none)] at ended
      cases ended
    · obtain ⟨s', g'', held, settled, same⟩ :=
        settleWithin_ok (fun s g next held ended => kept s g next _ held ⟨ended, rfl⟩) initial ended
      exact ⟨s', g'', held, settled, same.symm.trans left⟩
  · exact absurd left not_leaves_fail

theorem exists_settling_step {loop : Loop} {limit : Document} {step : Editing Bool}
    (left : (repeatUntil loop limit step).Leaves g () g') :
    Admits limit ∧ ∃ g'', step.Leaves g'' true g' := by
  obtain ⟨admits, ⟨⟩, g'', _, settled, same⟩ := exists_last_round (I := fun _ _ => True)
    (fun _ _ _ _ _ _ => trivial) trivial (repeatUntil_eq ▸ left)
  rw [progress, run_bind_pure] at same
  exact ⟨admits, g'', progress_settled_iff.mp settled, same⟩

/-! Transformations and loops. -/

theorem idempotent_perform {kind : Transformation} {work : Editing Unit}
    (traced : ∀ g, work.Traced (· = kind) g) (idempotent : work.Idempotent) :
    (perform kind work).Idempotent := by
  intro g g' left
  obtain ⟨plain, worked⟩ := leaves_perform.mp left
  refine (quiet_perform (traced g')).mpr ⟨fun other => ?_, idempotent g g' worked⟩
  exact Path.invariant (worked.traced (traced g))
    (fun same change => change.plain (same ▸ other)) (plain other)

theorem idempotent_repeatUntil {loop : Loop} {limit : Document} {step : Editing Bool}
    (traced : ∀ g, step.Traced among g)
    (last : ∀ g g', step.Leaves g true g' → step.Quiet g true) :
    (repeatUntil loop limit step).Idempotent := by
  intro g g' left
  obtain ⟨admits, g'', settled⟩ := exists_settling_step left
  have quiet : step.Quiet g'' true := last g'' g' settled
  have stays : g' = g'' := settled.2.symm.trans (quiet.grammar_eq (traced g''))
  exact stays ▸ (quiet_repeatUntil traced).mpr ⟨admits, quiet⟩

end Ebnf.Editing
