import Ebnf.Symbol.Shorthand

/-! Folding at bars. A sequence of items is cut at its bars, and there is just one way to do so: the
stretches, with bars put between them, are the items again. A sequence without bars is folded into
itself, and one with bars into a single alternative that has a branch for each stretch. -/
namespace Ebnf

variable {s : Sentence} {a : Symbol} {items folded : List Item}

namespace Item

/-- Items, or ε where there are none. -/
def orEpsilon (items : List Item) : List Item := if items = [] then [.symbol .epsilon] else items

/-- What a sequence is folded into. No stretch holds a bar, so each is as long as it can be. -/
inductive Folds : List Item → List Item → Prop
  | barless {items : List Item} (barless : .bar ∉ items) : Folds items items
  | barred {first : List Item} {others : List (List Item)} (several : others ≠ [])
      (barless : ∀ stretch ∈ first :: others, .bar ∉ stretch) :
      Folds (first ++ others.flatMap (.bar :: ·))
        [.symbol (.alternative (orEpsilon first) (others.map orEpsilon))]

/-- Nothing that was folded holds a bar. -/
theorem Folds.bar_notMem (folds : Folds items folded) : .bar ∉ folded := by
  cases folds with
  | barless barless => exact barless
  | barred => simp

/-! Symbols among items. -/

theorem mem_ofSymbols : .symbol a ∈ ofSymbols s ↔ a ∈ s := by
  simp [ofSymbols]

theorem bar_notMem_ofSymbols (s : Sentence) : .bar ∉ ofSymbols s := by
  simp [ofSymbols]

theorem ofSymbols_append (s t : Sentence) : ofSymbols (s ++ t) = ofSymbols s ++ ofSymbols t :=
  List.map_append

theorem exists_symbols (barless : .bar ∉ items) : ∃ s : Sentence, items = ofSymbols s := by
  induction items with
  | nil => exact ⟨[], rfl⟩
  | cons item items ih =>
    obtain ⟨s, rfl⟩ := ih fun later => barless (List.mem_cons_of_mem _ later)
    cases item with
    | bar => exact absurd List.mem_cons_self barless
    | symbol a => exact ⟨a :: s, rfl⟩

theorem exists_sentences {branches : List (List Item)}
    (barless : ∀ items ∈ branches, .bar ∉ items) :
    ∃ sentences : List Sentence, branches = sentences.map ofSymbols := by
  induction branches with
  | nil => exact ⟨[], rfl⟩
  | cons items branches ih =>
    obtain ⟨s, rfl⟩ := exists_symbols (barless items List.mem_cons_self)
    obtain ⟨sentences, rfl⟩ := ih fun _ later => barless _ (List.mem_cons_of_mem _ later)
    exact ⟨s :: sentences, rfl⟩

theorem branch_eq (items : List Item) : branch items = orEpsilon items := by
  cases items <;> simp [branch, orEpsilon]

/-! Cutting at the bars. -/

theorem stretches_append (s : Sentence) (items : List Item) :
    stretches (ofSymbols s ++ items) = (s ++ (stretches items).1, (stretches items).2) := by
  induction s with
  | nil => rfl
  | cons a s ih =>
    change stretches (.symbol a :: (ofSymbols s ++ items)) = _
    rw [stretches, ih]
    rfl

theorem stretches_ofSymbols (s : Sentence) : stretches (ofSymbols s) = (s, []) := by
  simpa [stretches] using stretches_append s []

/-- Stretches that are put together with bars are the ones to be cut out. -/
theorem stretches_barred (s : Sentence) (others : List Sentence) :
    stretches (ofSymbols s ++ others.flatMap (.bar :: ofSymbols ·)) = (s, others) := by
  induction others generalizing s with
  | nil => simpa using stretches_ofSymbols s
  | cons t others ih =>
    rw [stretches_append, List.flatMap_cons, List.cons_append, stretches, ih]
    simp

/-- Put together again, the stretches are the items they were cut from. -/
theorem barred_stretches (items : List Item) :
    ofSymbols (stretches items).1 ++ (stretches items).2.flatMap (.bar :: ofSymbols ·) = items := by
  induction items with
  | nil => rfl
  | cons item items ih =>
    cases item with
    | bar => exact congrArg (Item.bar :: ·) ih
    | symbol a => exact congrArg (Item.symbol a :: ·) ih

/-- There is more than one stretch where there is a bar. -/
theorem stretches_bar (bar : .bar ∈ items) : (stretches items).2 ≠ [] := by
  intro alone
  rw [← barred_stretches items, alone] at bar
  simp [bar_notMem_ofSymbols] at bar

end Item

namespace Sentence

theorem ofItems_ofSymbols (s : Sentence) : ofItems (Item.ofSymbols s) = s := by
  rw [ofItems, Item.stretches_ofSymbols]

theorem ofItems_barred (s : Sentence) {others : List Sentence} (several : others ≠ []) :
    ofItems (Item.ofSymbols s ++ others.flatMap (.bar :: Item.ofSymbols ·)) =
      [.alternative (Item.orEpsilon (Item.ofSymbols s))
        (others.map fun t => Item.orEpsilon (Item.ofSymbols t))] := by
  cases others with
  | nil => exact absurd rfl several
  | cons t others => simp only [ofItems, Item.stretches_barred, Item.branch_eq]

/-- Every sequence is folded into the sentence that is made of it. -/
theorem folds_ofItems (items : List Item) : Item.Folds items (Item.ofSymbols (ofItems items)) := by
  by_cases bar : .bar ∈ items
  · have several := Item.stretches_bar bar
    rw [← Item.barred_stretches items]
    generalize (Item.stretches items).2 = others at several
    rw [ofItems_barred _ several]
    have barless : ∀ stretch ∈ ((Item.stretches items).1 :: others).map Item.ofSymbols,
        .bar ∉ stretch := by
      simp [Item.bar_notMem_ofSymbols]
    have folds := Item.Folds.barred (mt List.map_eq_nil_iff.mp several) barless
    rwa [List.flatMap_map, List.map_map] at folds
  · obtain ⟨s, rfl⟩ := Item.exists_symbols bar
    rw [ofItems_ofSymbols]
    exact .barless bar

/-- It is folded into nothing else. -/
theorem folds_iff : Item.Folds items folded ↔ folded = Item.ofSymbols (ofItems items) := by
  refine ⟨fun folds => ?_, fun same => same ▸ folds_ofItems items⟩
  cases folds with
  | barless barless =>
    obtain ⟨s, rfl⟩ := Item.exists_symbols barless
    rw [ofItems_ofSymbols]
  | @barred first others several barless =>
    obtain ⟨s, rfl⟩ := Item.exists_symbols (barless first List.mem_cons_self)
    obtain ⟨sentences, rfl⟩ := Item.exists_sentences fun stretch later =>
      barless stretch (List.mem_cons_of_mem _ later)
    rw [List.flatMap_map, ofItems_barred s (by simpa using several), List.map_map]
    rfl

theorem ofItems_eq_nil : ofItems items = [] ↔ items = [] := by
  have folds := folds_ofItems items
  constructor
  · intro nothing
    rw [nothing] at folds
    cases folds
    rfl
  · rintro rfl
    rfl

end Sentence

theorem Symbol.enclose_eq_ok {kind : Bracket} {s : Symbol} :
    enclose kind items = .ok s ↔
      ∃ lead rest, Sentence.ofItems items = lead :: rest ∧ s = .bracket kind lead rest := by
  unfold enclose
  split
  · next nothing => simp [nothing]
  · next lead rest made =>
    refine ⟨fun same => ⟨lead, rest, made, (Except.ok.inj same).symm⟩, ?_⟩
    rintro ⟨_, _, same, rfl⟩
    cases made.symm.trans same
    rfl

end Ebnf
