import Ebnf.Proofs.Editing.Change

/-! Programs whose runs go by changes. A program is put together from parts, and it is enough that
each part goes by changes from where the parts before it lead. -/
namespace Ebnf.Editing

variable {α β σ : Type} {among wider : Transformation → Prop} {g : Grammar}

/-- The run of a program from a grammar is a path of changes, whether it succeeds or fails. -/
def Traced (among : Transformation → Prop) (x : Editing α) (g : Grammar) : Prop :=
  Path among g (x g).events (x g).grammar

theorem Traced.mono {x : Editing α} (h : x.Traced among g)
    (weaker : ∀ kind, among kind → wider kind) : x.Traced wider g :=
  Path.mono h weaker

theorem Traced.among_of_eq {kind : Transformation} {x : Editing α} (h : x.Traced (· = kind) g)
    (kinds : among kind) : x.Traced among g :=
  h.mono fun _ same => same ▸ kinds

theorem traced_pure (a : α) : (pure a : Editing α).Traced among g := .refl g

theorem traced_remark (r : Remark) : (remark r).Traced among g := .remark r (.refl g)

theorem traced_fail (e : Failure) : (fail e : Editing α).Traced among g := .refl g

theorem traced_ofExcept (x : Except Failure α) : (ofExcept x).Traced among g := .refl g

theorem traced_current_bind {f : Grammar → Editing β} (h : (f g).Traced among g) :
    (current >>= f).Traced among g := h

theorem traced_bind {x : Editing α} {f : α → Editing β} (first : x.Traced among g)
    (rest : ∀ a, (x g).outcome = .ok a → (f a).Traced among (x g).grammar) :
    (x >>= f).Traced among g := by
  unfold Traced
  cases ended : (x g).outcome with
  | ok a => rw [run_bind_ok ended]; exact Path.trans first (rest a ended)
  | error e => rw [run_bind_error ended]; exact first

theorem traced_remark_bind (r : Remark) {f : Unit → Editing β} (h : (f ()).Traced among g) :
    (remark r >>= f).Traced among g := .remark r h

theorem traced_recorded {x : Editing α} (h : x.Traced among g) : x.recorded.Traced among g := h

/-- A loop over a list, with what holds of the grammar and of the elements still to come. -/
theorem traced_forM {f : β → Editing Unit} (inv : List β → Grammar → Prop) {xs : List β}
    (step : ∀ x rest g, inv (x :: rest) g → (f x).Traced among g ∧
      ((f x g).outcome = .ok () → inv rest (f x g).grammar)) (initial : inv xs g) :
    (xs.forM f).Traced among g := by
  induction xs generalizing g with
  | nil => exact traced_pure ()
  | cons x xs ih =>
    obtain ⟨traced, kept⟩ := step x xs g initial
    exact traced_bind traced fun _ ended => ih (kept ended)

theorem traced_foldlM {f : σ → β → Editing σ} {xs : List β} {s : σ}
    (step : ∀ s x g, (f s x).Traced among g) : (xs.foldlM f s).Traced among g := by
  induction xs generalizing g s with
  | nil => exact traced_pure s
  | cons x xs ih =>
    rw [List.foldlM_cons]
    exact traced_bind (step s x g) fun _ _ => ih

theorem traced_settleWithin {e : Failure} {step : σ → Editing (Progress σ)} {rounds : Nat} {s : σ}
    (traced : ∀ s g, (step s).Traced among g) : (settleWithin e step rounds s).Traced among g := by
  induction rounds generalizing g s with
  | zero => exact traced_fail e
  | succ rounds ih =>
    refine traced_bind (traced s g) fun progress _ => ?_
    cases progress with
    | settled s => exact traced_pure s
    | unsettled s => exact ih

theorem traced_settle {loop : Loop} {limit : Document} {step : σ → Editing (Progress σ)} {s : σ}
    (traced : ∀ s g, (step s).Traced among g) : (settle loop limit step s).Traced among g := by
  unfold settle
  split
  · exact traced_settleWithin traced
  · exact traced_fail _

theorem traced_repeatUntil {loop : Loop} {limit : Document} {step : Editing Bool}
    (traced : ∀ g, step.Traced among g) : (repeatUntil loop limit step).Traced among g :=
  traced_settle fun _ g => traced_bind (traced g) fun settled _ => by
    cases settled <;> exact traced_pure _

theorem traced_perform {kind : Transformation} {work : Editing α} (h : work.Traced among g) :
    (perform kind work).Traced among g := by
  have finished : (work.recorded >>= fun done => remark (.done kind done.2.length) >>= fun _ =>
      pure done.1).Traced among g :=
    traced_bind (traced_recorded h) fun done _ => traced_remark_bind _ (traced_pure _)
  unfold perform
  apply traced_current_bind
  split
  · exact traced_bind (traced_ofExcept _) fun _ _ => finished
  · exact finished

end Ebnf.Editing
