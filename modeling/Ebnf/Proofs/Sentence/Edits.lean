import Ebnf.Proofs.Names
import Ebnf.Proofs.Results
import Ebnf.Sentence.Revision

/-! Single edits of a sentence. An edit at a position succeeds just where the sentence can be taken
apart there, and what it brings goes in between. A slice has the symbols that stand at the places
from one end to the other. -/
namespace Ebnf

/-- Where a slice of a list of some length begins, and the place that it stops at. Negative places
count from the end of the list. One that lies outside, or is left out, is moved to the border: from
right to left, the borders lie in front of the first and of the last element. -/
def sliceEnds (length : Nat) (first last : Option Int) (stride : Int) : Int × Int :=
  let low : Int := if 0 < stride then 0 else -1
  let high : Int := low + length
  let place (index : Int) : Int :=
    max low (min high (if index < 0 then index + length else index))
  if 0 < stride then (first.elim low place, last.elim high place)
  else (first.elim high place, last.elim low place)

/-- One list is the slice of another: the elements that stand a stride apart, from where the slice
begins up to where it stops, in this order. -/
def Slices {α : Type} (xs : List α) (first last : Option Int) (stride : Int) (ys : List α) : Prop :=
  let ends := sliceEnds xs.length first last stride
  ∀ n : Nat, ys[n]? =
    if 0 < stride ∧ ends.1 + n * stride < ends.2 ∨ stride < 0 ∧ ends.2 < ends.1 + n * stride then
      xs[(ends.1 + n * stride).toNat]?
    else none

section Lists

variable {α β : Type} {xs ys zs : List α} {i : Nat} {x : α}

theorem Slices.unique {first last : Option Int} {stride : Int}
    (left : Slices xs first last stride ys) (right : Slices xs first last stride zs) : ys = zs :=
  List.ext_getElem? fun n => (left n).trans (right n).symm

theorem Slices.map {first last : Option Int} {stride : Int} (f : α → β)
    (slices : Slices xs first last stride ys) :
    Slices (xs.map f) first last stride (ys.map f) := by
  intro n
  rw [List.getElem?_map, slices n, List.length_map]
  split
  · rw [List.getElem?_map]
  · rfl

theorem exists_append_of_lt (inside : i < xs.length) :
    ∃ before x after, xs = before ++ x :: after ∧ i = before.length := by
  have whole : (xs.take i).length = i := List.length_take_of_le (Nat.le_of_lt inside)
  refine ⟨xs.take i, xs[i], xs.drop (i + 1), ?_, whole.symm⟩
  rw [← List.drop_eq_getElem_cons inside, List.take_append_drop]

theorem getElem?_eq_some_iff_append :
    xs[i]? = some x ↔ ∃ before after, xs = before ++ x :: after ∧ i = before.length := by
  constructor
  · intro there
    obtain ⟨inside, _⟩ := List.getElem?_eq_some_iff.mp there
    obtain ⟨before, y, after, rfl, rfl⟩ := exists_append_of_lt inside
    obtain rfl : y = x := by simpa using there
    exact ⟨before, after, rfl, rfl⟩
  · rintro ⟨before, after, rfl, rfl⟩
    simp

end Lists

namespace Sentence

open Item (ofSymbols)

variable {s t : Sentence} {items : List Item} {index : Int} {rule : Rule} {d : Derivation}

/-! Positions. -/

theorem position_eq_ok {limit i : Nat} :
    s.position index limit = .ok i ↔ index = i ∧ i < limit := by
  unfold position
  split
  · rw [Except.ok.injEq]
    omega
  · simp only [reduceCtorEq, false_iff]
    omega

theorem insertAt_eq_ok : s.insertAt index items = .ok t ↔ ∃ before after, s = before ++ after ∧
    index = before.length ∧ t = ofItems (ofSymbols before ++ items ++ ofSymbols after) := by
  simp only [insertAt, bind_eq_ok, position_eq_ok, pure, Except.pure, Except.ok.injEq]
  constructor
  · rintro ⟨i, ⟨rfl, inside⟩, rfl⟩
    have whole : (s.take i).length = i := List.length_take_of_le (Nat.le_of_lt_succ inside)
    exact ⟨s.take i, s.drop i, (List.take_append_drop i s).symm, congrArg _ whole.symm, rfl⟩
  · rintro ⟨before, after, rfl, rfl, rfl⟩
    refine ⟨before.length, ⟨rfl, ?_⟩, by simp⟩
    rw [List.length_append]
    omega

theorem replaceAt_eq_ok : s.replaceAt index items = .ok t ↔ ∃ before a after,
    s = before ++ a :: after ∧ index = before.length ∧
      t = ofItems (ofSymbols before ++ items ++ ofSymbols after) := by
  simp only [replaceAt, bind_eq_ok, position_eq_ok, pure, Except.pure, Except.ok.injEq]
  constructor
  · rintro ⟨i, ⟨rfl, inside⟩, rfl⟩
    obtain ⟨before, a, after, rfl, rfl⟩ := exists_append_of_lt inside
    exact ⟨before, a, after, rfl, rfl, by simp⟩
  · rintro ⟨before, a, after, rfl, rfl, rfl⟩
    exact ⟨before.length, ⟨rfl, by simp⟩, by simp⟩

/-- To remove a symbol is to replace it by nothing. -/
theorem removeAt_eq (s : Sentence) (index : Int) : s.removeAt index = s.replaceAt index [] := by
  unfold removeAt replaceAt
  cases s.position index s.length with
  | error m => rfl
  | ok i =>
    refine congrArg Except.ok ?_
    rw [List.append_nil, ← Item.ofSymbols_append, ofItems_ofSymbols]

/-! Derivation steps. -/

theorem place_eq_some {i : Nat} {a : Symbol} :
    derive.place s index = some (i, a) ↔ index = i ∧ s[i]? = some a := by
  unfold derive.place
  split
  · simp only [reduceCtorEq, false_iff]
    omega
  · simp only [Option.map_eq_some_iff, Prod.mk.injEq]
    constructor
    · rintro ⟨_, there, rfl, rfl⟩
      exact ⟨by omega, there⟩
    · rintro ⟨rfl, there⟩
      exact ⟨a, there, rfl, rfl⟩

@[simp] theorem derived_append (before after : Sentence) (rule : Rule) :
    (⟨rule, before ++ .nonTerminal rule.head :: after, before.length⟩ : Derivation).derived =
      strip (before ++ rule.body ++ after) := by
  simp [Derivation.derived]

/-- A rule is applied to its head and to nothing else. -/
theorem derive_eq_ok : s.derive index rule = .ok d ↔ ∃ before after,
    s = before ++ .nonTerminal rule.head :: after ∧ index = before.length ∧
      d = ⟨rule, s, before.length⟩ := by
  unfold derive
  constructor
  · intro made
    split at made
    · cases made
    · next i a place =>
      split at made
      · cases made
      split at made
      · cases made
      next same =>
      obtain rfl := not_ne_iff.mp same
      obtain ⟨rfl, there⟩ := place_eq_some.mp place
      obtain ⟨before, after, rfl, rfl⟩ := getElem?_eq_some_iff_append.mp there
      exact ⟨before, after, rfl, rfl, (Except.ok.inj made).symm⟩
  · rintro ⟨before, after, rfl, rfl, rfl⟩
    have place : derive.place (before ++ .nonTerminal rule.head :: after) before.length =
        some (before.length, .nonTerminal rule.head) :=
      place_eq_some.mpr ⟨rfl, by simp⟩
    simp [place, Symbol.isNonTerminal, Symbol.name?]

theorem findIdx?_isNonTerminal_iff {before after : Sentence} {name : Name} :
    (before ++ .nonTerminal name :: after).findIdx? Symbol.isNonTerminal = some before.length ↔
      ∀ n, .nonTerminal n ∉ before := by
  have found : (Symbol.nonTerminal name :: after).findIdx? Symbol.isNonTerminal = some 0 := by
    simp [List.findIdx?_cons, Symbol.isNonTerminal, Symbol.name?]
  have earlier : before.findIdx? Symbol.isNonTerminal = none ↔ ∀ n, .nonTerminal n ∉ before := by
    rw [List.findIdx?_eq_none_iff]
    constructor
    · intro fixed n member
      cases fixed _ member
    · intro fixed a member
      cases a with
      | nonTerminal n => exact absurd member (fixed n)
      | terminal | epsilon | bracket | alternative => rfl
  rw [List.findIdx?_append, found, ← earlier]
  cases first : before.findIdx? Symbol.isNonTerminal with
  | none => simp
  | some i =>
    have inside := (List.findIdx?_eq_some_iff_findIdx_eq.mp first).1
    simp only [Option.map_some, Option.some_or, Option.some.injEq, reduceCtorEq, iff_false]
    omega

theorem deriveLeftmost_eq_ok : s.deriveLeftmost rule = .ok d ↔ ∃ before after,
    s = before ++ .nonTerminal rule.head :: after ∧ (∀ n, .nonTerminal n ∉ before) ∧
      d = ⟨rule, s, before.length⟩ := by
  unfold deriveLeftmost
  constructor
  · intro made
    split at made
    · next i first =>
      obtain ⟨before, after, rfl, place, rfl⟩ := derive_eq_ok.mp made
      obtain rfl := Int.ofNat.inj place
      exact ⟨before, after, rfl, findIdx?_isNonTerminal_iff.mp first, rfl⟩
    · cases made
  · rintro ⟨before, after, rfl, fixed, rfl⟩
    rw [findIdx?_isNonTerminal_iff.mpr fixed]
    exact derive_eq_ok.mpr ⟨before, after, rfl, rfl, rfl⟩

theorem deriveRightmost_eq_ok : s.deriveRightmost rule = .ok d ↔ ∃ before after,
    s = before ++ .nonTerminal rule.head :: after ∧ (∀ n, .nonTerminal n ∉ after) ∧
      d = ⟨rule, s, before.length⟩ := by
  have turned (before after : Sentence) :
      (before ++ .nonTerminal rule.head :: after).reverse.findIdx? Symbol.isNonTerminal =
        some after.length ↔ ∀ n, .nonTerminal n ∉ after := by
    have leftmost : (after.reverse ++ .nonTerminal rule.head :: before.reverse).findIdx?
        Symbol.isNonTerminal = some after.reverse.length ↔ ∀ n, .nonTerminal n ∉ after.reverse :=
      findIdx?_isNonTerminal_iff
    simpa using leftmost
  unfold deriveRightmost
  constructor
  · intro made
    split at made
    · next i last =>
      obtain ⟨before, after, rfl, place, rfl⟩ := derive_eq_ok.mp made
      have inside := (List.findIdx?_eq_some_iff_findIdx_eq.mp last).1
      obtain rfl : i = after.length := by
        simp only [List.length_reverse, List.length_append, List.length_cons] at inside place
        omega
      exact ⟨before, after, rfl, (turned before after).mp last, rfl⟩
    · cases made
  · rintro ⟨before, after, rfl, fixed, rfl⟩
    rw [(turned before after).mpr fixed]
    exact derive_eq_ok.mpr ⟨before, after, rfl, by simp, rfl⟩

/-! Slices. -/

theorem sliceEnd_le (s : Sentence) (index : Int) : s.sliceEnd index ≤ s.length := by
  unfold sliceEnd
  split <;> omega

/-- The symbols between two ends stand one behind the other from the first of them. -/
theorem getElem?_between (first last : Option Int) (i : Nat) :
    (s.between first last)[i]? =
      if first.elim 0 s.sliceEnd + i < last.elim s.length s.sliceEnd then
        s[first.elim 0 s.sliceEnd + i]?
      else none := by
  rw [between, List.getElem?_drop, List.getElem?_take]

theorem sliceEnds_forward {stride : Int} (forward : 0 < stride) (first last : Option Int) :
    sliceEnds (List.length s) first last stride =
      (((first.elim 0 s.sliceEnd : Nat) : Int), ((last.elim s.length s.sliceEnd : Nat) : Int)) := by
  have moved (index : Int) : max 0 (min (s.length : Int)
      (if index < 0 then index + s.length else index)) = (s.sliceEnd index : Int) := by
    unfold sliceEnd
    split <;> omega
  cases first <;> cases last <;> simp [sliceEnds, forward, moved]

/-- From right to left, the ends are those of the sentence turned around, seen from its other
side. -/
theorem sliceEnds_backward {stride : Int} (backward : ¬ 0 < stride) (first last : Option Int) :
    sliceEnds (List.length s) first last stride =
      (s.length - 1 - (((first.map (-1 - ·)).elim 0 (sliceEnd s.reverse) : Nat) : Int),
        s.length - 1 - (((last.map (-1 - ·)).elim s.length (sliceEnd s.reverse) : Nat) : Int)) := by
  have moved (index : Int) : max (-1) (min ((-1 : Int) + s.length)
      (if index < 0 then index + s.length else index)) =
        s.length - 1 - (sliceEnd s.reverse (-1 - index) : Int) := by
    unfold sliceEnd
    rw [List.length_reverse]
    split <;> split <;> omega
  cases first <;> cases last <;> simp [sliceEnds, backward, moved] <;> omega

theorem slices_slice (s : Sentence) (first last : Option Int) (stride : Stride) :
    Slices s first last stride.places (s.slice first last stride) := by
  intro n
  by_cases forward : 0 < stride.places
  · obtain ⟨m, places⟩ := Int.eq_ofNat_of_zero_le (Int.le_of_lt forward)
    rw [sliceEnds_forward forward, slice, if_pos forward, places, Int.toNat_natCast,
      getElem?_everyNth (by omega), getElem?_between, Nat.zero_add]
    generalize first.elim 0 s.sliceEnd = start
    generalize last.elim s.length s.sliceEnd = stop
    have place : (start : Int) + n * m = (start + n * m : Nat) := by push_cast; rfl
    rw [place, Int.toNat_natCast]
    exact if_congr (by omega) rfl rfl
  · have nonzero := stride.nonzero
    obtain ⟨m, places⟩ : ∃ m : Nat, stride.places = -m := ⟨(-stride.places).toNat, by omega⟩
    rw [sliceEnds_backward forward, slice, if_neg forward, places, Int.neg_neg, Int.toNat_natCast,
      getElem?_everyNth (by omega), getElem?_between, Nat.zero_add, List.length_reverse,
      Int.mul_neg]
    generalize (first.map (-1 - ·)).elim 0 (sliceEnd s.reverse) = start
    -- Only in front of the first symbol do the places of the sentence turned around end.
    have bounded : (last.map (-1 - ·)).elim s.length (sliceEnd s.reverse) ≤ s.length := by
      cases last with
      | none => exact Nat.le_refl _
      | some index => simpa using sliceEnd_le s.reverse (-1 - index)
    generalize (last.map (-1 - ·)).elim s.length (sliceEnd s.reverse) = stop at bounded
    by_cases inside : start + n * m < stop
    · rw [if_pos inside, if_pos (by omega), List.getElem?_reverse (by omega)]
      exact congrArg (s[·]?) (by omega)
    · rw [if_neg inside, if_neg (by omega)]

end Sentence

end Ebnf
