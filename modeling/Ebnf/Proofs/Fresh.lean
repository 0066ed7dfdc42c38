import Mathlib.Data.List.Nodup
import Mathlib.Data.List.Perm.Subperm
import Mathlib.Logic.Function.Iterate
import Ebnf.Proofs.Names

/-! Names made up by appending prime marks. The name that the search ends with is the first in its
row that is not taken, so a name made up for a grammar does not occur in it at all. All names before
it in the row are taken, and there are only so many names in a grammar, so the search comes to its
end within as many tries. -/
namespace Ebnf

/-- A non-terminal occurs in a symbol: it is the symbol, or it occurs in one of those that the
symbol is shorthand for. -/
inductive Name.OccursIn (name : Name) : Symbol → Prop where
  | here : name.OccursIn (.nonTerminal name)
  | bracket {kind a lead rest} (inside : a ∈ lead :: rest) (deeper : name.OccursIn a) :
      name.OccursIn (.bracket kind lead rest)
  | alternative {a branch first others} (listed : branch ∈ first :: others)
      (inside : .symbol a ∈ branch) (deeper : name.OccursIn a) :
      name.OccursIn (.alternative first others)

/-- A name is in use in a grammar if it heads a rule or occurs in the body of one, however deep in
shorthand. -/
def Grammar.Uses (g : Grammar) (name : Name) : Prop :=
  ∃ rule ∈ g.rules, rule.head = name ∨ ∃ a ∈ rule.body, name.OccursIn a

namespace Name

theorem length_prime (name : Name) : name.prime.text.length = name.text.length + 1 := by
  rw [prime, String.length_append]
  rfl

theorem length_primes (name : Name) (k : Nat) :
    (prime^[k] name).text.length = name.text.length + k := by
  induction k generalizing name with
  | zero => rfl
  | succ k ih =>
    rw [Function.iterate_succ_apply, ih, length_prime]
    omega

theorem primes_injective {name : Name} {j k : Nat} (same : prime^[j] name = prime^[k] name) :
    j = k := by
  have lengths := congrArg (fun n => n.text.length) same
  simp only [length_primes] at lengths
  omega

theorem text_primes (name : Name) (k : Nat) :
    (prime^[k] name).text = name.text ++ String.join (List.replicate k primeMark) := by
  induction k with
  | zero => simp
  | succ k ih =>
    have longer : (prime^[k + 1] name).text = (prime^[k] name).text ++ primeMark := by
      rw [Function.iterate_succ_apply']
      rfl
    rw [longer, ih, List.replicate_succ', String.append_assoc]
    simp

theorem startsWith_primes (name : Name) (k : Nat) :
    (prime^[k] name).text.startsWith name.text = true := by
  rw [String.startsWith_string_iff]
  induction k with
  | zero => exact List.prefix_rfl
  | succ k ih =>
    rw [Function.iterate_succ_apply']
    refine ih.trans ?_
    simp [prime, String.toList_append]

/-- Names struck off the list come earlier in the row than all that are tried later. -/
theorem freshPrime_spec (name : Name) (taken : List Name) :
    ∃ k, 1 ≤ k ∧ freshPrime name taken = prime^[k] name ∧ prime^[k] name ∉ taken ∧
      ∀ j, 1 ≤ j → j < k → prime^[j] name ∈ taken := by
  fun_induction freshPrime name taken with
  | case1 name taken member ih =>
    obtain ⟨k, positive, same, untaken, earlier⟩ := ih
    refine ⟨k + 1, by omega, same, ?_, ?_⟩
    · rw [Function.iterate_succ_apply]
      intro occurs
      refine untaken ((List.mem_erase_of_ne ?_).mpr occurs)
      intro again
      have := @primes_injective name.prime k 0 again
      omega
    · intro j first last
      obtain ⟨i, rfl⟩ : ∃ i, j = i + 1 := ⟨j - 1, by omega⟩
      rw [Function.iterate_succ_apply]
      rcases Nat.eq_zero_or_pos i with rfl | later
      · exact member
      · exact List.mem_of_mem_erase (earlier i later (by omega))
  | case2 name taken unused => exact ⟨1, Nat.le_refl 1, rfl, unused, by omega⟩

/-- The names before one in the row are different from each other, so there are no more of them
than there are names taken. -/
theorem le_of_primes_taken {name : Name} {taken : List Name} {k : Nat}
    (earlier : ∀ j, 1 ≤ j → j < k → prime^[j] name ∈ taken) : k ≤ taken.length + 1 := by
  let row := (List.range (k - 1)).map fun i => prime^[i + 1] name
  have apart : row.Nodup := by
    refine List.nodup_range.map fun i j same => ?_
    have := primes_injective same
    omega
  have within : row ⊆ taken := by
    intro tried listed
    obtain ⟨i, before, rfl⟩ := List.mem_map.mp listed
    have := List.mem_range.mp before
    exact earlier (i + 1) (by omega) (by omega)
  have fewer := (List.subperm_of_subset apart within).length_le
  simp only [row, List.length_map, List.length_range] at fewer
  omega

end Name

/-! Names that are collected occur, and names that occur are collected. -/

theorem Symbol.occursIn_of_mem_names {n : Name} : (a : Symbol) → n ∈ a.names → n.OccursIn a
  | .terminal _, member => by cases member
  | .epsilon, member => by cases member
  | .nonTerminal m, member => by
    obtain rfl := Symbol.mem_names_nonTerminal.mp member
    exact .here
  | .bracket kind lead rest, member => by
    have named : n ∈ Symbol.namesIn (lead :: rest) := member
    obtain ⟨a, inside, deeper⟩ := Symbol.mem_namesIn_iff.mp named
    have smaller : sizeOf a < sizeOf (Symbol.bracket kind lead rest) := by
      have := List.sizeOf_lt_of_mem inside
      simp only [List.cons.sizeOf_spec, Symbol.bracket.sizeOf_spec] at this ⊢
      omega
    exact .bracket inside (occursIn_of_mem_names a deeper)
  | .alternative first others, member => by
    have named : n ∈ Item.namesInAll (first :: others) := member
    obtain ⟨branch, listed, found⟩ := Item.mem_namesInAll_iff.mp named
    obtain ⟨a, inside, deeper⟩ := Item.mem_namesIn_iff.mp found
    have smaller : sizeOf a < sizeOf (Symbol.alternative first others) := by
      have := Nat.lt_trans (List.sizeOf_lt_of_mem inside) (List.sizeOf_lt_of_mem listed)
      simp only [List.cons.sizeOf_spec, Item.symbol.sizeOf_spec, Symbol.alternative.sizeOf_spec]
        at this ⊢
      omega
    exact .alternative listed inside (occursIn_of_mem_names a deeper)
  termination_by a => sizeOf a
  decreasing_by all_goals exact smaller

theorem Name.OccursIn.mem_names {n : Name} {a : Symbol} (occurs : n.OccursIn a) : n ∈ a.names := by
  induction occurs with
  | here => exact Symbol.mem_names_nonTerminal.mpr rfl
  | @bracket kind a lead rest inside _ ih =>
    have named : n ∈ Symbol.namesIn (lead :: rest) := Symbol.mem_namesIn_iff.mpr ⟨a, inside, ih⟩
    exact named
  | @alternative a branch first others listed inside _ ih =>
    have named : n ∈ Item.namesInAll (first :: others) :=
      Item.mem_namesInAll_iff.mpr ⟨branch, listed, Item.mem_namesIn_iff.mpr ⟨a, inside, ih⟩⟩
    exact named

namespace Grammar

variable (g : Grammar) (name : Name)

theorem uses_iff_mem_names : g.Uses name ↔ name ∈ g.names := by
  simp only [Uses, names, Rule.names, List.mem_flatMap, List.mem_cons, Symbol.mem_namesIn_iff]
  refine exists_congr fun rule => and_congr_right fun _ => or_congr eq_comm ?_
  exact exists_congr fun a => and_congr_right fun _ =>
    ⟨Name.OccursIn.mem_names, Symbol.occursIn_of_mem_names a⟩

/-- The names that do not begin like the given one cannot be among those tried. -/
theorem fresh_spec : ∃ k, 1 ≤ k ∧ g.fresh name = Name.prime^[k] name ∧
    Name.prime^[k] name ∉ g.names ∧ ∀ j, 1 ≤ j → j < k → Name.prime^[j] name ∈ g.names := by
  obtain ⟨k, positive, same, untaken, earlier⟩ :=
    Name.freshPrime_spec name (g.names.filter (·.text.startsWith name.text))
  refine ⟨k, positive, same, ?_, ?_⟩
  · intro occurs
    exact untaken (List.mem_filter.mpr ⟨occurs, Name.startsWith_primes name k⟩)
  · intro j first last
    exact (List.mem_filter.mp (earlier j first last)).1

theorem fresh_notMem_names : g.fresh name ∉ g.names := by
  obtain ⟨k, _, same, untaken, _⟩ := g.fresh_spec name
  rw [same]
  exact untaken

theorem fresh_ne : g.fresh name ≠ name := by
  obtain ⟨k, positive, same, _, _⟩ := g.fresh_spec name
  rw [same]
  intro equal
  have := Name.primes_injective (k := 0) equal
  omega

/-- The name made up for a non-terminal is its own with as few prime marks behind it, but at least
one, as make a name that is not in use; to find it takes at most one try more than there are names
in the grammar. -/
theorem fresh_shortest : ∃ k, 1 ≤ k ∧ k ≤ g.names.length + 1 ∧
    (g.fresh name).text = name.text ++ String.join (List.replicate k Name.primeMark) ∧
    ¬ g.Uses (g.fresh name) ∧
    ∀ j, 1 ≤ j → j < k → ∃ shorter : Name,
      shorter.text = name.text ++ String.join (List.replicate j Name.primeMark) ∧
      g.Uses shorter := by
  obtain ⟨k, positive, same, untaken, earlier⟩ := g.fresh_spec name
  refine ⟨k, positive, Name.le_of_primes_taken earlier, ?_, ?_, ?_⟩
  · rw [same, Name.text_primes]
  · rw [same, uses_iff_mem_names]
    exact untaken
  · intro j first last
    refine ⟨Name.prime^[j] name, Name.text_primes name j, ?_⟩
    rw [uses_iff_mem_names]
    exact earlier j first last

end Grammar
end Ebnf
