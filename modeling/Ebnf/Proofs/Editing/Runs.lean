import Ebnf.Editing.Basic
import Ebnf.Proofs.Lookup

/-! How the run of a program is put together from the runs of its parts. Single steps are equations
that compute a run; sequences and loops go on where the part before them ended. -/
namespace Ebnf

variable {α β σ : Type} {g : Grammar}

namespace Run

@[simp] theorem grammar_after (earlier : List Event) (r : Run α) :
    (r.after earlier).grammar = r.grammar := rfl

@[simp] theorem events_after (earlier : List Event) (r : Run α) :
    (r.after earlier).events = earlier ++ r.events := rfl

@[simp] theorem outcome_after (earlier : List Event) (r : Run α) :
    (r.after earlier).outcome = r.outcome := rfl

@[simp] theorem after_mk (earlier events : List Event) (outcome : Except Failure α) :
    (⟨g, events, outcome⟩ : Run α).after earlier = ⟨g, earlier ++ events, outcome⟩ := rfl

@[simp] theorem after_after (first second : List Event) (r : Run α) :
    (r.after second).after first = r.after (first ++ second) := by
  simp [after]

@[simp] theorem records_after (earlier : List Event) (r : Run α) :
    (r.after earlier).records = earlier.filterMap Event.record? ++ r.records := by
  simp [records]

end Run

/-- The event that a record is committed. -/
def Event.record (kind : Transformation) (replaced : Rule) (replacements : List Rule) : Event :=
  .committed ⟨replaced, replacements, kind.reason⟩

namespace Event

@[simp] theorem record?_record (kind : Transformation) (replaced : Rule)
    (replacements : List Rule) :
    (record kind replaced replacements).record? = some ⟨replaced, replacements, kind.reason⟩ := by
  simp only [record, record?]

@[simp] theorem record?_minted (name : Name) (before : Grammar) :
    (minted name before).record? = none := by
  simp only [record?]

@[simp] theorem record?_remarked (r : Remark) : (remarked r).record? = none := by
  simp only [record?]

theorem filterMap_record?_map (kind : Transformation) (replaced : α → Rule)
    (replacements : α → List Rule) (xs : List α) :
    (xs.map fun x => record kind (replaced x) (replacements x)).filterMap record? =
      xs.map fun x => ⟨replaced x, replacements x, kind.reason⟩ := by
  rw [List.filterMap_map]
  exact congrFun List.filterMap_eq_map' xs

end Event

namespace Editing

theorem run_bind_ok {x : Editing α} {f : α → Editing β} {a : α} (ended : (x g).outcome = .ok a) :
    (x >>= f) g = (f a (x g).grammar).after (x g).events := by
  change andThen x f g = _
  unfold andThen
  split
  · next run =>
    rw [run] at ended ⊢
    cases ended
    rfl
  · next run => simp [run] at ended

theorem run_bind_error {x : Editing α} {f : α → Editing β} {e : Failure}
    (failed : (x g).outcome = .error e) :
    (x >>= f) g = ⟨(x g).grammar, (x g).events, .error e⟩ := by
  change andThen x f g = _
  unfold andThen
  split
  · next run => simp [run] at failed
  · next run =>
    rw [run] at failed ⊢
    cases failed
    rfl

@[simp] theorem run_pure (a : α) : (pure a : Editing α) g = ⟨g, [], .ok a⟩ := rfl

@[simp] theorem run_current_bind (f : Grammar → Editing β) : (current >>= f) g = f g g := rfl

@[simp] theorem run_edit (h : Grammar → Grammar) : edit h g = ⟨h g, [], .ok ()⟩ := rfl

@[simp] theorem run_edit_bind (h : Grammar → Grammar) (f : Unit → Editing β) :
    (edit h >>= f) g = f () (h g) := rfl

@[simp] theorem run_tell (e : Event) : tell e g = ⟨g, [e], .ok ()⟩ := rfl

@[simp] theorem run_tell_bind (e : Event) (f : Unit → Editing β) :
    (tell e >>= f) g = (f () g).after [e] := rfl

@[simp] theorem run_remark (r : Remark) : remark r g = ⟨g, [.remarked r], .ok ()⟩ := rfl

@[simp] theorem run_remark_bind (r : Remark) (f : Unit → Editing β) :
    (remark r >>= f) g = (f () g).after [.remarked r] := rfl

@[simp] theorem run_fail (e : Failure) : (fail e : Editing α) g = ⟨g, [], .error e⟩ := rfl

@[simp] theorem run_ofExcept (x : Except Failure α) : ofExcept x g = ⟨g, [], x⟩ := rfl

@[simp] theorem run_ofExcept_ok_bind (a : α) (f : α → Editing β) :
    (ofExcept (.ok a) >>= f) g = f a g := rfl

@[simp] theorem run_ofExcept_error_bind (e : Failure) (f : α → Editing β) :
    (ofExcept (.error e) >>= f) g = ⟨g, [], .error e⟩ := rfl

@[simp] theorem run_bind_pure (x : Editing α) (f : α → β) :
    (do let a ← x; pure (f a)) g = ⟨(x g).grammar, (x g).events, (x g).outcome.map f⟩ := by
  cases ended : (x g).outcome with
  | ok a => rw [run_bind_ok ended]; simp [Run.after, Except.map]
  | error e => rw [run_bind_error ended]; rfl

@[simp] theorem run_commit_bind (kind : Transformation) (replaced : Rule)
    (replacements : List Rule) (f : Unit → Editing β) :
    (commit kind replaced replacements >>= f) g =
      (f () g).after [.record kind replaced replacements] := rfl

theorem run_forM_cons (f : α → Editing Unit) (x : α) (xs : List α) :
    (x :: xs).forM f g = (f x >>= fun _ => xs.forM f) g := rfl

/-- A loop that only commits a record for each element of a list changes nothing. -/
theorem run_forM_commit (kind : Transformation) (replaced : α → Rule)
    (replacements : α → List Rule) (xs : List α) :
    xs.forM (fun x => commit kind (replaced x) (replacements x)) g =
      ⟨g, xs.map fun x => .record kind (replaced x) (replacements x), .ok ()⟩ := by
  induction xs with
  | nil => rfl
  | cons x xs ih =>
    rw [run_forM_cons, run_commit_bind, ih]
    rfl

theorem run_forM_commit_bind (kind : Transformation) (replaced : α → Rule)
    (replacements : α → List Rule) (xs : List α) (f : Unit → Editing β) :
    (xs.forM (fun x => commit kind (replaced x) (replacements x)) >>= f) g =
      (f () g).after (xs.map fun x => .record kind (replaced x) (replacements x)) := by
  have run := run_forM_commit (g := g) kind replaced replacements xs
  rw [run_bind_ok (a := ()) (congrArg Run.outcome run), run]

theorem run_replace_bind {rule : Rule} (replacements : List Rule) (member : rule ∈ g.rules)
    (f : Unit → Editing β) : (replace rule replacements >>= f) g =
      f () { g with rules := replaceFirst rule replacements g.rules } := by
  have done : replace rule replacements g =
      ⟨{ g with rules := replaceFirst rule replacements g.rules }, [], .ok ()⟩ := by
    simp [replace, Grammar.replace, member, mapError_ok]
  rw [run_bind_ok (a := ()) (by rw [done]), done]
  rfl

end Editing
end Ebnf
