import Ebnf.Grammar.Reader

/-! What the reader of grammars fails with. It takes documents apart as they are built, whatever
their form, and there are two things that it can say against one: that it is not written as a
grammar is, or that it asks for a symbol or a start that cannot be. -/
namespace Ebnf

/-- A failure that speaks against a document. -/
def Failure.IsRefusal : Failure → Prop
  | .format _ | .misuse _ => True
  | .contradiction _ | .divergence .. | .rejection _ | .settings _ | .fault _ => False

/-- A computation that succeeds or refuses the document that it works on. -/
def OnlyRefuses {α : Type} (x : Except Failure α) : Prop := ∀ e, x = .error e → e.IsRefusal

namespace OnlyRefuses

variable {α β : Type} {x : Except Failure α}

theorem ok (a : α) : OnlyRefuses (.ok a) := by
  rintro _ ⟨⟩

theorem format (p : FormatProblem) : OnlyRefuses (.error (.format p) : Except Failure α) := by
  rintro _ ⟨⟩
  trivial

theorem misuse (m : Misuse) : OnlyRefuses (.error (.misuse m) : Except Failure α) := by
  rintro _ ⟨⟩
  trivial

theorem mapError_format (x : Except FormatProblem α) : OnlyRefuses (x.mapError .format) := by
  cases x with
  | ok a => exact ok a
  | error p => exact format p

theorem mapError_misuse (x : Except Misuse α) : OnlyRefuses (x.mapError .misuse) := by
  cases x with
  | ok a => exact ok a
  | error m => exact misuse m

theorem bind {f : α → Except Failure β} (first : OnlyRefuses x) (rest : ∀ a, OnlyRefuses (f a)) :
    OnlyRefuses (x >>= f) := by
  cases x with
  | ok a => exact rest a
  | error e =>
    rintro _ ⟨⟩
    exact first e rfl

theorem mapM {f : α → Except Failure β} (each : ∀ a, OnlyRefuses (f a)) (xs : List α) :
    OnlyRefuses (xs.mapM f) := by
  induction xs with
  | nil => exact ok []
  | cons a xs ih =>
    rw [List.mapM_cons]
    exact (each a).bind fun b => ih.bind fun bs => ok (b :: bs)

end OnlyRefuses

namespace Vocabulary

variable (v : Vocabulary)

theorem word_onlyRefuses (text : String) : OnlyRefuses (v.word text) := by
  unfold word
  split
  · exact .ok _
  split
  · exact .ok _
  split
  · split
    · exact .format _
    · exact .ok _
  split
  · exact .ok _
  split
  · exact .ok _
  · exact .misuse _

mutual

theorem item_onlyRefuses : (d : Document) → OnlyRefuses (v.item d)
  | .text s => v.word_onlyRefuses s
  | .table entries => by
    rw [item]
    exact (shorthand_onlyRefuses entries).bind fun _ => .ok _
  | .null | .bool _ | .int _ | .floating _ | .list _ => .format _

theorem shorthand_onlyRefuses : (entries : List (Key × Document)) →
    OnlyRefuses (v.shorthand entries)
  | [] => .format _
  | [(key, value)] => by
    rw [shorthand]
    split
    · exact (alternatives_onlyRefuses value).bind fun _ => .mapError_misuse _
    split
    · exact (body_onlyRefuses value).bind fun _ => .mapError_misuse _
    · exact .format _
  | _ :: _ :: _ => .format _

theorem alternatives_onlyRefuses : (d : Document) → OnlyRefuses (v.alternatives d)
  | .list (first :: others) => bodies_onlyRefuses (first :: others)
  | .list [] | .null | .bool _ | .int _ | .floating _ | .text _ | .table _ => .format _

theorem body_onlyRefuses : (d : Document) → OnlyRefuses (v.body d)
  | .null => .ok _
  | .text s => .mapM v.word_onlyRefuses (Text.words s)
  | .list documents => items_onlyRefuses documents
  | .bool _ | .int _ | .floating _ | .table _ => .format _

theorem items_onlyRefuses : (ds : List Document) → OnlyRefuses (v.items ds)
  | [] => .ok _
  | d :: rest => by
    rw [items]
    exact (item_onlyRefuses d).bind fun _ => (items_onlyRefuses rest).bind fun _ => .ok _

theorem bodies_onlyRefuses : (ds : List Document) → OnlyRefuses (v.bodies ds)
  | [] => .ok _
  | d :: rest => by
    rw [bodies]
    exact (body_onlyRefuses d).bind fun _ => (bodies_onlyRefuses rest).bind fun _ => .ok _

end

theorem rules_onlyRefuses (entry : Key × Document) : OnlyRefuses (v.rules entry) := by
  have rule (d : Document) : OnlyRefuses (v.rule entry.1 d) :=
    (OnlyRefuses.mapError_misuse _).bind fun _ => (v.body_onlyRefuses d).bind fun _ => .ok _
  unfold rules
  split <;> exact .mapM rule _

end Vocabulary

namespace Grammar

theorem ofDocument_onlyRefuses (d : Document) : OnlyRefuses (ofDocument d) := by
  refine (OnlyRefuses.mapError_format _).bind fun entries => ?_
  refine (OnlyRefuses.mapError_format _).bind fun terminals => ?_
  refine (OnlyRefuses.mapError_format _).bind fun start => ?_
  refine (OnlyRefuses.mapM (Vocabulary.rules_onlyRefuses _) entries).bind fun rules => ?_
  refine (OnlyRefuses.mapError_misuse _).bind fun start => ?_
  dsimp only
  split
  · exact (OnlyRefuses.mapError_misuse _).bind fun _ => .ok _
  · exact .ok _

theorem ofSource_onlyRefuses : (source : Source) → OnlyRefuses (ofSource source)
  | .document d => ofDocument_onlyRefuses d
  | .unreadable _ => .format _

end Grammar

end Ebnf
