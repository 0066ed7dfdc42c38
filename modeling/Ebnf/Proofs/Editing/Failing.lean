import Ebnf.Proofs.Editing.Runs

/-! The ways in which programs fail. A program is put together from parts, and it can only fail as
one of its parts does from where the parts before it lead. -/
namespace Ebnf.Editing

variable {α β σ : Type} {among : Failure → Prop} {g : Grammar}

/-- Run on the grammar, the program succeeds or fails in one of some ways. -/
def FailsWithin (among : Failure → Prop) (x : Editing α) (g : Grammar) : Prop :=
  ∀ e, (x g).outcome = .error e → among e

theorem failsWithin_of_ok {x : Editing α} {a : α} (ended : (x g).outcome = .ok a) :
    x.FailsWithin among g := by
  intro e failed
  cases ended.symm.trans failed

theorem failsWithin_pure (a : α) : (pure a : Editing α).FailsWithin among g :=
  failsWithin_of_ok rfl

theorem failsWithin_remark (r : Remark) : (remark r).FailsWithin among g :=
  failsWithin_of_ok rfl

theorem failsWithin_fail {e : Failure} (listed : among e) :
    (fail e : Editing α).FailsWithin among g := by
  rintro _ ⟨⟩
  exact listed

theorem failsWithin_current_bind {f : Grammar → Editing β} (h : (f g).FailsWithin among g) :
    (current >>= f).FailsWithin among g := h

theorem failsWithin_bind {x : Editing α} {f : α → Editing β} (first : x.FailsWithin among g)
    (rest : ∀ a, (x g).outcome = .ok a → (f a).FailsWithin among (x g).grammar) :
    (x >>= f).FailsWithin among g := by
  intro e failed
  cases ended : (x g).outcome with
  | ok a =>
    rw [run_bind_ok ended] at failed
    exact rest a ended e failed
  | error e' =>
    rw [run_bind_error ended] at failed
    cases failed
    exact first e ended

theorem failsWithin_ofExcept_bind {x : Except Failure α} {f : α → Editing β}
    (first : ∀ e, x = .error e → among e) (rest : ∀ a, x = .ok a → (f a).FailsWithin among g) :
    (ofExcept x >>= f).FailsWithin among g :=
  failsWithin_bind first rest

theorem failsWithin_recorded {x : Editing α} (h : x.FailsWithin among g) :
    x.recorded.FailsWithin among g := by
  intro e failed
  change (x g).outcome.map _ = _ at failed
  cases ended : (x g).outcome with
  | ok a =>
    rw [ended] at failed
    cases failed
  | error e' =>
    rw [ended] at failed
    cases failed
    exact h e ended

/-- A loop over a list, with what holds of the grammar and of the elements still to come. -/
theorem failsWithin_forM {f : β → Editing Unit} (inv : List β → Grammar → Prop) {xs : List β}
    (step : ∀ x rest g, inv (x :: rest) g → (f x).FailsWithin among g ∧
      ((f x g).outcome = .ok () → inv rest (f x g).grammar)) (initial : inv xs g) :
    (xs.forM f).FailsWithin among g := by
  induction xs generalizing g with
  | nil => exact failsWithin_pure ()
  | cons x xs ih =>
    obtain ⟨first, kept⟩ := step x xs g initial
    exact failsWithin_bind first fun _ ended => ih (kept ended)

theorem failsWithin_foldlM {f : σ → β → Editing σ} {xs : List β} {s : σ}
    (step : ∀ s x g, (f s x).FailsWithin among g) : (xs.foldlM f s).FailsWithin among g := by
  induction xs generalizing g s with
  | nil => exact failsWithin_pure s
  | cons x xs ih =>
    rw [List.foldlM_cons]
    exact failsWithin_bind (step s x g) fun _ _ => ih

theorem failsWithin_settleWithin {exceeded : Failure} {step : σ → Editing (Progress σ)}
    {rounds : Nat} {s : σ} (listed : among exceeded)
    (steps : ∀ s g, (step s).FailsWithin among g) :
    (settleWithin exceeded step rounds s).FailsWithin among g := by
  induction rounds generalizing g s with
  | zero => exact failsWithin_fail listed
  | succ rounds ih =>
    refine failsWithin_bind (steps s g) fun progress _ => ?_
    cases progress with
    | settled s => exact failsWithin_pure s
    | unsettled s => exact ih

/-- A loop fails as its step does or by going round too often. -/
theorem failsWithin_settle {loop : Loop} {count : Int} {step : σ → Editing (Progress σ)} {s : σ}
    (listed : among (.divergence loop (.int count) .iterations))
    (steps : ∀ s g, (step s).FailsWithin among g) :
    (settle loop (.int count) step s).FailsWithin among g := by
  change (settleWithin _ step count.toNat s).FailsWithin among g
  exact failsWithin_settleWithin listed steps

theorem failsWithin_repeatUntil {loop : Loop} {count : Int} {step : Editing Bool}
    (listed : among (.divergence loop (.int count) .iterations))
    (steps : ∀ g, step.FailsWithin among g) :
    (repeatUntil loop (.int count) step).FailsWithin among g :=
  failsWithin_settle listed fun _ g => failsWithin_bind (steps g) fun settled _ => by
    cases settled <;> exact failsWithin_pure _

theorem failsWithin_perform {kind : Transformation} {work : Editing α}
    (listed : among (.misuse .shorthandLeft)) (h : work.FailsWithin among g) :
    (perform kind work).FailsWithin among g := by
  have finished : (work.recorded >>= fun done => remark (.done kind done.2.length) >>= fun _ =>
      pure done.1).FailsWithin among g :=
    failsWithin_bind (failsWithin_recorded h) fun done _ =>
      failsWithin_bind (failsWithin_remark _) fun _ _ => failsWithin_pure _
  unfold perform
  apply failsWithin_current_bind
  split
  · refine failsWithin_ofExcept_bind (fun e failed => ?_) fun _ _ => finished
    cases shorthand : g.hasShorthand with
    | false => simp [Grammar.requirePlain, shorthand, mapError_ok] at failed
    | true =>
      simp only [Grammar.requirePlain, shorthand, if_true, mapError_error, Except.error.injEq]
        at failed
      exact failed ▸ listed
  · exact finished

end Ebnf.Editing
