import Mathlib
import Ebnf.Proofs.Sentence.Edits

/-! Runs of edits. Beside each edit stands a plain operation on lists of items, which knows nothing
of folding. The edit is that operation with one fold behind it, and it is refused just where the
plain operation has nothing to work on; so a whole run can be followed on lists of items. -/
namespace Ebnf

open Item (ofSymbols)

namespace Item

/-- Items without ε, or ε alone where nothing else is left. -/
def stripped (items : List Item) : List Item := orEpsilon (items.filter (· ≠ .symbol .epsilon))

def name? : Item → Option Name
  | .symbol a => a.name?
  | .bar => none

end Item

namespace Edit

/-- The plain operation of an edit: what it makes of a list of items, where nothing is folded. -/
def Plain (items changed : List Item) : Edit → Prop
  | .add new => changed = items ++ new
  | .insertAt index new => ∃ before after, items = before ++ after ∧ index = before.length ∧
      changed = before ++ new ++ after
  | .removeAt index => ∃ before old after, items = before ++ old :: after ∧
      index = before.length ∧ changed = before ++ after
  | .replaceAt index new => ∃ before old after, items = before ++ old :: after ∧
      index = before.length ∧ changed = before ++ new ++ after
  | .slice first last stride => Slices items first last stride.places changed
  | .join parts => changed = Item.stripped (parts.flatMap (Part.fill items))
  | .derive index rule => ∃ before after,
      items = before ++ .symbol (.nonTerminal rule.head) :: after ∧ index = before.length ∧
        changed = Item.stripped (before ++ ofSymbols rule.body ++ after)
  | .deriveLeftmost rule => ∃ before after,
      items = before ++ .symbol (.nonTerminal rule.head) :: after ∧
        (∀ n, .symbol (.nonTerminal n) ∉ before) ∧
        changed = Item.stripped (before ++ ofSymbols rule.body ++ after)
  | .deriveRightmost rule => ∃ before after,
      items = before ++ .symbol (.nonTerminal rule.head) :: after ∧
        (∀ n, .symbol (.nonTerminal n) ∉ after) ∧
        changed = Item.stripped (before ++ ofSymbols rule.body ++ after)

/-- An edit is refused if its position is out of range, and a derivation step also if another symbol
stands there than the head of the rule. -/
def Refused (items : List Item) : Edit → Prop
  | .add _ | .slice .. | .join _ => False
  | .insertAt index _ => ¬ (0 ≤ index ∧ index ≤ items.length)
  | .removeAt index | .replaceAt index _ => ¬ (0 ≤ index ∧ index < items.length)
  | .derive index rule => ¬ (0 ≤ index ∧ index < items.length) ∨
      items[index.toNat]? ≠ some (.symbol (.nonTerminal rule.head))
  | .deriveLeftmost rule => items.findSome? Item.name? ≠ some rule.head
  | .deriveRightmost rule => items.reverse.findSome? Item.name? ≠ some rule.head

/-- What comes of each edit of a run: what the plain operation makes of the items, folded once, or
nothing where it is refused. -/
inductive Transcript : List Item → List Edit → List (Option (List Item)) → Prop
  | done {items : List Item} : Transcript items [] []
  | made {items changed folded : List Item} {edit : Edit} {edits : List Edit}
      {later : List (Option (List Item))} (plain : edit.Plain items changed)
      (folds : Item.Folds changed folded) (rest : Transcript folded edits later) :
      Transcript items (edit :: edits) (some folded :: later)
  | refused {items : List Item} {edit : Edit} {edits : List Edit}
      {later : List (Option (List Item))} (refused : edit.Refused items)
      (rest : Transcript items edits later) : Transcript items (edit :: edits) (none :: later)

end Edit

/-- No step of a run leaves a bar behind. -/
theorem Edit.Transcript.bar_notMem {items later : List Item} {edits : List Edit}
    {transcript : List (Option (List Item))} (run : Edit.Transcript items edits transcript)
    (made : some later ∈ transcript) : .bar ∉ later := by
  induction run with
  | done => cases made
  | made plain folds rest ih =>
    rcases List.mem_cons.mp made with same | listed
    · exact Option.some.inj same ▸ folds.bar_notMem
    · exact ih listed
  | refused refused rest ih =>
    exact ih ((List.mem_cons.mp made).resolve_left (Option.some_ne_none _))

namespace Item

variable {s : Sentence} {before after : List Item} {item : Item} {name : Name}

/-! The items of a sentence. -/

@[simp] theorem length_ofSymbols : (ofSymbols s).length = s.length :=
  List.length_map _

theorem ofSymbols_eq_append : ofSymbols s = before ++ after ↔
    ∃ front back, s = front ++ back ∧ ofSymbols front = before ∧ ofSymbols back = after :=
  List.map_eq_append_iff

theorem ofSymbols_eq_append_cons : ofSymbols s = before ++ item :: after ↔
    ∃ front a back, s = front ++ a :: back ∧ ofSymbols front = before ∧ .symbol a = item ∧
      ofSymbols back = after := by
  rw [ofSymbols_eq_append]
  constructor
  · rintro ⟨front, _, rfl, rfl, rest⟩
    obtain ⟨a, back, rfl, rfl, rfl⟩ := List.map_eq_cons_iff.mp rest
    exact ⟨front, a, back, rfl, rfl, rfl, rfl⟩
  · rintro ⟨front, a, back, rfl, rfl, rfl, rfl⟩
    exact ⟨front, a :: back, rfl, rfl, rfl⟩

theorem stripped_ofSymbols (s : Sentence) :
    stripped (ofSymbols s) = ofSymbols (Sentence.strip s) := by
  have kept : (ofSymbols s).filter (· ≠ .symbol .epsilon) =
      ofSymbols (s.filter (· ≠ .epsilon)) := by
    simp [ofSymbols, List.filter_map, Function.comp_def]
  rw [stripped, kept, Sentence.strip]
  cases s.filter (· ≠ .epsilon) <;> rfl

theorem join_eq (items : List Item) : Sentence.join items = Sentence.ofItems (stripped items) := by
  rw [stripped, Sentence.join]
  cases items.filter (· ≠ .symbol .epsilon) <;> rfl

theorem name?_eq_some : item.name? = some name ↔ item = .symbol (.nonTerminal name) := by
  cases item with
  | bar => simp [name?]
  | symbol a => simp [name?, Symbol.name?_eq_some]

/-- The first name among items is that of their leftmost non-terminal. -/
theorem findSome?_name? {items : List Item} : items.findSome? name? = some name ↔
    ∃ before after, items = before ++ .symbol (.nonTerminal name) :: after ∧
      ∀ n, .symbol (.nonTerminal n) ∉ before := by
  have unnamed (items : List Item) :
      (∀ item ∈ items, name? item = none) ↔ ∀ n, .symbol (.nonTerminal n) ∉ items := by
    simp only [Option.eq_none_iff_forall_ne_some, ne_eq, name?_eq_some]
    exact ⟨fun none n member => none _ member n rfl,
      fun fixed item member n same => fixed n (same ▸ member)⟩
  simp only [List.findSome?_eq_some_iff, name?_eq_some, unnamed]
  constructor
  · rintro ⟨before, _, after, same, rfl, fixed⟩
    exact ⟨before, after, same, fixed⟩
  · rintro ⟨before, after, same, fixed⟩
    exact ⟨before, _, after, same, rfl, fixed⟩

end Item

namespace Sentence

variable {s t : Sentence} {edit : Edit} {rule : Rule}

/-! Single edits. -/

/-- A derivation step is the plain one, wherever its strategy applies the rule. -/
theorem derived_eq_ok {x : Except Misuse Derivation} {Here : Sentence → Sentence → Prop}
    {There : List Item → List Item → Prop}
    (same : ∀ before after, There (ofSymbols before) (ofSymbols after) ↔ Here before after)
    (applied : ∀ d, x = .ok d ↔ ∃ before after, s = before ++ .nonTerminal rule.head :: after ∧
      Here before after ∧ d = ⟨rule, s, before.length⟩) :
    x.map Derivation.derived = .ok t ↔ ∃ changed,
      (∃ before after, ofSymbols s = before ++ .symbol (.nonTerminal rule.head) :: after ∧
        There before after ∧ changed = Item.stripped (before ++ ofSymbols rule.body ++ after)) ∧
      t = ofItems changed := by
  have derived (before after : Sentence) :
      (⟨rule, before ++ .nonTerminal rule.head :: after, before.length⟩ : Derivation).derived =
        ofItems (Item.stripped (ofSymbols before ++ ofSymbols rule.body ++ ofSymbols after)) := by
    rw [derived_append, ← Item.ofSymbols_append, ← Item.ofSymbols_append, Item.stripped_ofSymbols,
      ofItems_ofSymbols]
  rw [map_eq_ok]
  constructor
  · rintro ⟨d, stepped, rfl⟩
    obtain ⟨before, after, rfl, here, rfl⟩ := (applied d).mp stepped
    exact ⟨_, ⟨ofSymbols before, ofSymbols after, Item.ofSymbols_append _ _,
      (same before after).mpr here, rfl⟩, derived before after⟩
  · rintro ⟨_, ⟨_, _, split, there, rfl⟩, rfl⟩
    obtain ⟨before, a, after, rfl, rfl, found, rfl⟩ := Item.ofSymbols_eq_append_cons.mp split
    obtain rfl := Item.symbol.inj found
    exact ⟨_, (applied _).mpr ⟨before, after, rfl, (same before after).mp there, rfl⟩,
      derived before after⟩

/-- The symbol at a position gives way to items in the plain way. -/
theorem replaced_eq_ok {index : Int} {new : List Item} : s.replaceAt index new = .ok t ↔
    ∃ changed, (∃ before old after, ofSymbols s = before ++ old :: after ∧ index = before.length ∧
      changed = before ++ new ++ after) ∧ t = ofItems changed := by
  rw [replaceAt_eq_ok]
  constructor
  · rintro ⟨before, a, after, rfl, rfl, rfl⟩
    exact ⟨_, ⟨ofSymbols before, .symbol a, ofSymbols after, Item.ofSymbols_append _ _, by simp,
      rfl⟩, rfl⟩
  · rintro ⟨_, ⟨_, _, _, split, place, rfl⟩, rfl⟩
    obtain ⟨before, a, after, rfl, rfl, rfl, rfl⟩ := Item.ofSymbols_eq_append_cons.mp split
    exact ⟨before, a, after, rfl, by simpa using place, rfl⟩

/-- An edit that is made is its plain operation with one fold behind it. -/
theorem edited_eq_ok : s.edited edit = .ok t ↔
    ∃ changed, edit.Plain (ofSymbols s) changed ∧ t = ofItems changed := by
  cases edit with
  | add new => simp [edited, add, Edit.Plain, eq_comm]
  | insertAt index new =>
    rw [edited, insertAt_eq_ok]
    constructor
    · rintro ⟨before, after, rfl, rfl, rfl⟩
      exact ⟨_, ⟨ofSymbols before, ofSymbols after, Item.ofSymbols_append _ _, by simp, rfl⟩, rfl⟩
    · rintro ⟨_, ⟨_, _, split, place, rfl⟩, rfl⟩
      obtain ⟨before, after, rfl, rfl, rfl⟩ := Item.ofSymbols_eq_append.mp split
      exact ⟨before, after, rfl, by simpa using place, rfl⟩
  | removeAt index =>
    rw [edited, removeAt_eq, replaced_eq_ok]
    simp only [Edit.Plain, List.append_nil]
  | replaceAt index new => exact replaced_eq_ok
  | slice first last stride =>
    have sliced := (slices_slice s first last stride).map Item.symbol
    constructor
    · intro made
      obtain rfl := Except.ok.inj made
      exact ⟨_, sliced, (ofItems_ofSymbols _).symm⟩
    · rintro ⟨_, plain, rfl⟩
      obtain rfl := plain.unique sliced
      exact congrArg Except.ok (ofItems_ofSymbols _).symm
  | join parts => simp [edited, Item.join_eq, Edit.Plain, eq_comm]
  | derive index rule => exact derived_eq_ok (by simp) fun d => derive_eq_ok
  | deriveLeftmost rule =>
    exact derived_eq_ok (by simp [Item.mem_ofSymbols]) fun d => deriveLeftmost_eq_ok
  | deriveRightmost rule =>
    exact derived_eq_ok (by simp [Item.mem_ofSymbols]) fun d => deriveRightmost_eq_ok

end Sentence

namespace Edit

/-- The plain operation has something to work on where the edit is not refused. -/
theorem exists_plain_iff {edit : Edit} (s : Sentence) :
    (∃ changed, edit.Plain (ofSymbols s) changed) ↔ ¬ edit.Refused (ofSymbols s) := by
  generalize here : ofSymbols s = items
  cases edit with
  | add | join => exact iff_of_true ⟨_, rfl⟩ id
  | slice first last stride =>
    exact here ▸ iff_of_true ⟨_, (s.slices_slice first last stride).map Item.symbol⟩ id
  | insertAt index new =>
    rw [Refused, not_not]
    constructor
    · rintro ⟨_, before, after, rfl, rfl, rfl⟩
      rw [List.length_append]
      omega
    · rintro ⟨low, high⟩
      have whole : (items.take index.toNat).length = index.toNat :=
        List.length_take_of_le (by omega)
      exact ⟨_, items.take index.toNat, items.drop index.toNat,
        (List.take_append_drop _ _).symm, by omega, rfl⟩
  | removeAt index | replaceAt index new =>
    rw [Refused, not_not]
    constructor
    · rintro ⟨_, before, old, after, rfl, rfl, rfl⟩
      rw [List.length_append, List.length_cons]
      omega
    · rintro ⟨low, high⟩
      have inside : index.toNat < items.length := by omega
      obtain ⟨before, old, after, same, place⟩ := exists_append_of_lt inside
      exact ⟨_, before, old, after, same, by omega, rfl⟩
  | derive index rule =>
    rw [Refused, not_or, not_not, not_not]
    constructor
    · rintro ⟨_, before, after, rfl, rfl, rfl⟩
      refine ⟨?_, by simp⟩
      rw [List.length_append, List.length_cons]
      omega
    · rintro ⟨⟨low, _⟩, there⟩
      obtain ⟨before, after, same, place⟩ := getElem?_eq_some_iff_append.mp there
      exact ⟨_, before, after, same, by omega, rfl⟩
  | deriveLeftmost rule =>
    rw [Refused, not_not, Item.findSome?_name?]
    constructor
    · rintro ⟨_, before, after, same, fixed, _⟩
      exact ⟨before, after, same, fixed⟩
    · rintro ⟨before, after, same, fixed⟩
      exact ⟨_, before, after, same, fixed, rfl⟩
  | deriveRightmost rule =>
    rw [Refused, not_not, Item.findSome?_name?]
    constructor
    · rintro ⟨_, before, after, rfl, fixed, _⟩
      exact ⟨after.reverse, before.reverse, by simp, by simpa using fixed⟩
    · rintro ⟨after, before, same, fixed⟩
      have turned :
          items = before.reverse ++ .symbol (.nonTerminal rule.head) :: after.reverse := by
        simpa using congrArg List.reverse same
      exact ⟨_, before.reverse, after.reverse, turned, by simpa using fixed, rfl⟩

end Edit

namespace Sentence

variable {s : Sentence} {edit : Edit}

/-- An edit fails where the plain operation has nothing to work on, and nowhere else. -/
theorem edited_eq_error : (∃ m, s.edited edit = .error m) ↔ edit.Refused (ofSymbols s) := by
  have failed : (∃ m, s.edited edit = .error m) ↔ ¬ ∃ t, s.edited edit = .ok t := by
    cases s.edited edit <;> simp
  have plain : (∃ t, s.edited edit = .ok t) ↔ ∃ changed, edit.Plain (ofSymbols s) changed := by
    simp only [edited_eq_ok]
    exact ⟨fun ⟨_, changed, plain, _⟩ => ⟨changed, plain⟩,
      fun ⟨changed, plain⟩ => ⟨_, changed, plain, rfl⟩⟩
  rw [failed, plain, Edit.exists_plain_iff, not_not]

/-! Runs. -/

/-- The run of a sentence is the one that can be followed on its items, and no other can. -/
theorem transcript_iff {edits : List Edit} {transcript : List (Option (List Item))} :
    Edit.Transcript (ofSymbols s) edits transcript ↔
      transcript = (s.outcomes edits).map fun outcome => outcome.toOption.map ofSymbols := by
  -- Positions may mean something else after every edit, so this is about any sentence.
  induction edits generalizing s transcript with
  | nil =>
    refine ⟨fun run => ?_, fun same => same ▸ .done⟩
    cases run
    rfl
  | cons edit edits ih =>
    cases outcome : s.edited edit with
    | ok t =>
      rw [outcomes, outcome]
      constructor
      · intro run
        cases run with
        | made plain folds rest =>
          obtain rfl := folds_iff.mp folds
          obtain rfl := Except.ok.inj (outcome.symm.trans (edited_eq_ok.mpr ⟨_, plain, rfl⟩))
          exact congrArg _ (ih.mp rest)
        | refused refused rest =>
          obtain ⟨m, failed⟩ := edited_eq_error.mpr refused
          cases outcome.symm.trans failed
      · rintro rfl
        obtain ⟨changed, plain, rfl⟩ := edited_eq_ok.mp outcome
        exact .made plain (folds_ofItems changed) (ih.mpr rfl)
    | error m =>
      rw [outcomes, outcome]
      constructor
      · intro run
        cases run with
        | made plain folds rest => cases outcome.symm.trans (edited_eq_ok.mpr ⟨_, plain, rfl⟩)
        | refused refused rest => exact congrArg _ (ih.mp rest)
      · rintro rfl
        exact .refused (edited_eq_error.mp ⟨m, outcome⟩) (ih.mpr rfl)

/-- What is made of items, in a sentence or between brackets, is what they fold into, and so no bar
is left. A run of edits over the sentence is the run of their plain operations, each with one fold
behind it; the edits that are refused are those without a position to work at, and nothing else is
refused. -/
theorem outcomes_exact (items : List Item) (edits : List Edit) (kind : Bracket) :
    (∀ folded transcript,
      Item.Folds items folded ∧ Edit.Transcript folded edits transcript ↔
        folded = ofSymbols (ofItems items) ∧
          transcript = ((ofItems items).outcomes edits).map fun outcome =>
            outcome.toOption.map ofSymbols) ∧
      (∀ folded transcript, Item.Folds items folded → Edit.Transcript folded edits transcript →
        .bar ∉ folded ∧ ∀ later, some later ∈ transcript → .bar ∉ later) ∧
      (items = [] ∧ Symbol.enclose kind items = .error (.emptyBracket kind) ∨
        ∃ lead rest, Symbol.enclose kind items = .ok (.bracket kind lead rest) ∧
          Item.Folds items (ofSymbols (lead :: rest)) ∧ .bar ∉ ofSymbols (lead :: rest)) := by
  refine ⟨fun folded transcript => ?_, fun folded transcript folds run => ?_, ?_⟩
  · rw [folds_iff]
    refine and_congr_right fun same => ?_
    rw [same, transcript_iff]
  · exact ⟨folds.bar_notMem, fun _ => run.bar_notMem⟩
  · cases contents : ofItems items with
    | nil =>
      exact .inl ⟨ofItems_eq_nil.mp contents, by rw [Symbol.enclose, contents]⟩
    | cons lead rest =>
      have folds : Item.Folds items (ofSymbols (lead :: rest)) := contents ▸ folds_ofItems items
      exact .inr ⟨lead, rest, Symbol.enclose_eq_ok.mpr ⟨lead, rest, contents, rfl⟩, folds,
        folds.bar_notMem⟩

/-- The bar that is put behind `sail` takes all of the sentence into one alternative, so there is no
third place any more, and no `sail` to derive from. -/
theorem outcomes_sail :
    let sail : Name := ⟨"sail", by decide⟩
    let n : Item := .symbol (.nonTerminal sail)
    let a : Item := .symbol (.terminal ⟨"a", none⟩)
    let nothing : Rule := ⟨sail, .epsilon, []⟩
    let edits : List Edit := [.insertAt 1 [.bar], .insertAt 2 [a], .deriveLeftmost nothing,
      .add [.bar], .replaceAt 0 [n, a], .derive 0 nothing]
    let folded : List Item := [.symbol (.alternative [n] [[a]])]
    let transcript : List (Option (List Item)) := [some folded, none, none,
      some [.symbol (.alternative folded [[.symbol .epsilon]])], some [n, a], some [a]]
    Item.Folds [n, a] [n, a] ∧ Edit.Transcript [n, a] edits transcript ∧
      ∀ later, some later ∈ transcript → .bar ∉ later := by
  intro sail n a nothing edits folded transcript
  obtain ⟨run, barless, _⟩ := outcomes_exact [n, a] edits .group
  have followed : Item.Folds [n, a] [n, a] ∧ Edit.Transcript [n, a] edits transcript :=
    (run [n, a] transcript).mpr ⟨rfl, by cbv⟩
  exact ⟨followed.1, followed.2, (barless _ _ followed.1 followed.2).2⟩

end Sentence

end Ebnf
