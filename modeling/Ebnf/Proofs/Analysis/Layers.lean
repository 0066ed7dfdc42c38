import Mathlib.Data.Nat.Find
import Ebnf.Proofs.Analysis.Chains
import Ebnf.Proofs.Analysis.Reachability

/-! The search goes layer by layer. A layer is taken off the queue as a whole before anything that
it mentions, and what it mentions and is still pending makes up the next one. So the layers are the
non-terminals at each distance from the start, the number of steps of a shortest chain of
mentions. -/
namespace Ebnf

section Distances

variable {α : Type} {R : α → α → Prop} {a b c : α} {j k : Nat}

/-- `Distant R a k b` says that the shortest chains of steps from `a` to `b` have `k` steps. -/
structure Distant (R : α → α → Prop) (a : α) (k : Nat) (b : α) : Prop where
  chain : Chain R k a b
  shortest : ∀ j, Chain R j a b → k ≤ j

namespace Chain

theorem exists_last (chain : Chain R (k + 1) a c) : ∃ b, Chain R k a b ∧ R b c := by
  induction k generalizing a with
  | zero =>
    cases chain with
    | cons step rest =>
      cases rest
      exact ⟨a, .nil, step⟩
  | succ k ih =>
    cases chain with
    | cons step rest =>
      obtain ⟨b, before, last⟩ := ih rest
      exact ⟨b, .cons step before, last⟩

theorem exists_of_reflTransGen (walk : Relation.ReflTransGen R a b) : ∃ k, Chain R k a b := by
  induction walk with
  | refl => exact ⟨0, .nil⟩
  | tail _ step ih =>
    obtain ⟨k, chain⟩ := ih
    exact ⟨k + 1, chain.concat step⟩

theorem exists_distant (chain : Chain R k a b) : ∃ j ≤ k, Distant R a j b := by
  classical
  have some : ∃ j, Chain R j a b := ⟨k, chain⟩
  exact ⟨Nat.find some, Nat.find_min' some chain, Nat.find_spec some,
    fun j chain => Nat.find_min' some chain⟩

end Chain

namespace Distant

theorem unique (first : Distant R a j b) (second : Distant R a k b) : j = k :=
  Nat.le_antisymm (first.shortest k second.chain) (second.shortest j first.chain)

/-- What is a step farther is one step away from what is at the distance before. -/
theorem exists_before (distant : Distant R a (k + 1) c) : ∃ b, Distant R a k b ∧ R b c := by
  obtain ⟨b, chain, last⟩ := distant.chain.exists_last
  refine ⟨b, ⟨chain, fun j shorter => ?_⟩, last⟩
  exact Nat.le_of_succ_le_succ (distant.shortest (j + 1) (shorter.concat last))

end Distant

end Distances

variable {mentions : Name → List Name} {pending now later queue mentioned more : List Name}
  {start n x : Name} {k : Nat}

/-! Discovery. -/

theorem discover_append : discover pending (mentioned ++ more) =
    ((discover pending mentioned).1 ++ (discover (discover pending mentioned).2 more).1,
      (discover (discover pending mentioned).2 more).2) := by
  induction mentioned generalizing pending with
  | nil => rfl
  | cons name rest ih =>
    rw [List.cons_append, discover, discover]
    split
    · rw [ih]
      rfl
    · exact ih

/-- What is pending is either found or left. -/
theorem discover_perm :
    ((discover pending mentioned).1 ++ (discover pending mentioned).2).Perm pending := by
  induction mentioned generalizing pending with
  | nil => exact .refl pending
  | cons name rest ih =>
    rw [discover]
    split
    · next waiting => exact (ih.cons name).trans (List.perm_cons_erase waiting).symm
    · exact ih

theorem nodup_discover (apart : pending.Nodup) : (discover pending mentioned).2.Nodup ∧
    (discover pending mentioned).1.Disjoint (discover pending mentioned).2 :=
  (List.nodup_append'.mp (discover_perm.nodup_iff.mpr apart)).2

theorem mem_discover : x ∈ (discover pending mentioned).1 ↔ x ∈ pending ∧ x ∈ mentioned := by
  refine ⟨discover_sound.1 x, ?_⟩
  rintro ⟨waiting, occurs⟩
  exact (discover_complete waiting).2 occurs

theorem mem_left_discover (apart : pending.Nodup) :
    x ∈ (discover pending mentioned).2 ↔ x ∈ pending ∧ x ∉ mentioned := by
  constructor
  · intro left
    have waiting := discover_sound.2 x left
    refine ⟨waiting, fun occurs => ?_⟩
    exact (nodup_discover apart).2 (mem_discover.mpr ⟨waiting, occurs⟩) left
  · rintro ⟨waiting, missing⟩
    exact (discover_complete waiting).1.resolve_left fun found => missing (mem_discover.mp found).2

/-! Layers. -/

/-- What is at the front of the queue is listed first, and what it leads to is queued behind the
rest. -/
theorem breadthFirst_append : breadthFirst mentions pending (now ++ later) =
    now ++ breadthFirst mentions (discover pending (now.flatMap mentions)).2
      (later ++ (discover pending (now.flatMap mentions)).1) := by
  induction now generalizing pending later with
  | nil => simp [discover]
  | cons name now ih =>
    rw [List.cons_append, breadthFirst, List.append_assoc, ih, List.flatMap_cons, discover_append,
      List.append_assoc, List.cons_append]

theorem breadthFirst_layer : breadthFirst mentions pending now =
    now ++ breadthFirst mentions (discover pending (now.flatMap mentions)).2
      (discover pending (now.flatMap mentions)).1 := by
  have queued := @breadthFirst_append mentions pending now []
  simpa only [List.append_nil, List.nil_append] using queued

/-- A step from a name to one that it mentions. -/
abbrev Mentioning (mentions : Name → List Name) (a b : Name) : Prop := b ∈ mentions a

/-- `Layer mentions start k pending now` says that `now` lists what is at distance `k`, and that
what is farther is pending. -/
structure Layer (mentions : Name → List Name) (start : Name) (k : Nat)
    (pending now : List Name) : Prop where
  exact : ∀ x, x ∈ now ↔ Distant (Mentioning mentions) start k x
  far : ∀ x ∈ pending, ∀ j, Chain (Mentioning mentions) j start x → k < j
  waits : ∀ x j, k < j → Distant (Mentioning mentions) start j x → x ∈ pending

namespace Layer

theorem next (layer : Layer mentions start k pending now) (apart : pending.Nodup) :
    Layer mentions start (k + 1) (discover pending (now.flatMap mentions)).2
      (discover pending (now.flatMap mentions)).1 := by
  have found : ∀ x, x ∈ (discover pending (now.flatMap mentions)).1 ↔
      Distant (Mentioning mentions) start (k + 1) x := by
    intro x
    rw [mem_discover, List.mem_flatMap]
    constructor
    · rintro ⟨waiting, n, listed, occurs⟩
      exact ⟨((layer.exact n).mp listed).chain.concat occurs, layer.far x waiting⟩
    · intro distant
      obtain ⟨n, before, occurs⟩ := distant.exists_before
      exact ⟨layer.waits x _ (Nat.lt_succ_self k) distant, n, (layer.exact n).mpr before, occurs⟩
  refine ⟨found, fun x left j chain => ?_, fun x j farther distant => ?_⟩
  · obtain ⟨waiting, missing⟩ := (mem_left_discover apart).mp left
    refine Nat.lt_of_le_of_ne (layer.far x waiting j chain) ?_
    rintro rfl
    exact missing (mem_discover.mp ((found x).mpr ⟨chain, layer.far x waiting⟩)).2
  · have waiting := layer.waits x j (Nat.lt_of_succ_lt farther) distant
    refine (discover_complete waiting).1.resolve_left fun new => ?_
    exact Nat.ne_of_lt farther (((found x).mp new).unique distant)

/-- From a layer on everything is listed in the order of its distance. -/
theorem nondecreasing {distance : Name → Nat} (layer : Layer mentions start k pending now)
    (apart : pending.Nodup) (measured : ∀ x j,
      Distant (Mentioning mentions) start j x → distance x = j) :
    (breadthFirst mentions pending now).Pairwise (distance · ≤ distance ·) ∧
      ∀ x ∈ breadthFirst mentions pending now, k ≤ distance x := by
  induction size : pending.length using Nat.strongRecOn generalizing pending now k with
  | _ size ih =>
  subst size
  have here : ∀ x ∈ now, distance x = k := fun x listed => measured x k ((layer.exact x).mp listed)
  have level : now.Pairwise (distance · ≤ distance ·) :=
    List.pairwise_of_forall_mem_list fun x first y second => by rw [here x first, here y second]
  cases found : (discover pending (now.flatMap mentions)).1 with
  | nil =>
    rw [breadthFirst_layer, found, breadthFirst, List.append_nil]
    exact ⟨level, fun x listed => Nat.le_of_eq (here x listed).symm⟩
  | cons first others =>
    have fewer : (discover pending (now.flatMap mentions)).2.length < pending.length := by
      have both := length_discover pending (now.flatMap mentions)
      rw [found, List.length_cons] at both
      omega
    obtain ⟨ordered, farther⟩ := ih _ fewer (layer.next apart) (nodup_discover apart).1 rfl
    rw [breadthFirst_layer, List.pairwise_append]
    refine ⟨⟨level, ordered, fun x listed y later => ?_⟩, fun x listed => ?_⟩
    · rw [here x listed]
      exact Nat.le_trans (Nat.le_succ k) (farther y later)
    · rcases List.mem_append.mp listed with now | later
      · exact Nat.le_of_eq (here x now).symm
      · exact Nat.le_trans (Nat.le_succ k) (farther x later)

end Layer

/-! The list. -/

theorem mem_of_mem_breadthFirst (listed : x ∈ breadthFirst mentions pending queue) :
    x ∈ queue ∨ x ∈ pending := by
  obtain ⟨q, queued, through⟩ := mem_breadthFirst.mp listed
  rcases through.cases_tail with rfl | ⟨_, _, _, waiting⟩
  · exact .inl queued
  · exact .inr waiting

theorem nodup_breadthFirst (apart : (queue ++ pending).Nodup) :
    (breadthFirst mentions pending queue).Nodup := by
  fun_induction breadthFirst mentions pending queue with
  | case1 => exact List.nodup_nil
  | case2 pending name queue found ih =>
    have parts : (queue ++ found.1 ++ found.2).Perm (queue ++ pending) := by
      rw [List.append_assoc]
      exact discover_perm.append_left queue
    obtain ⟨new, rest⟩ := List.nodup_cons.mp apart
    refine List.nodup_cons.mpr ⟨fun again => new ?_, ih (parts.nodup_iff.mpr rest)⟩
    exact parts.mem_iff.mp (List.mem_append.mpr (mem_of_mem_breadthFirst again))

theorem head?_breadthFirst : (breadthFirst mentions pending (n :: queue)).head? = some n := by
  rw [breadthFirst]
  rfl

namespace Grammar

variable {g : Grammar} {reached : List Name}

theorem reachable_eq (plain : g.hasShorthand = false) (started : g.requireStart = .ok start) :
    g.reachable = .ok (breadthFirst g.mentions (g.names.eraseDups.erase start) [start]) := by
  simp [reachable, requirePlain_eq_ok.mpr plain, started, bind, Except.bind, pure, Except.pure]

/-- The start symbol by itself is the first layer. -/
theorem layer_start (g : Grammar) (start : Name) :
    Layer g.mentions start 0 (g.names.eraseDups.erase start) [start] := by
  refine ⟨fun x => ?_, fun x waiting j chain => ?_, fun x j farther distant => ?_⟩
  · rw [List.mem_singleton]
    constructor
    · rintro rfl
      exact ⟨.nil, fun j _ => Nat.zero_le j⟩
    · rintro ⟨⟨⟩, _⟩
      rfl
  · cases chain with
    | nil => exact absurd rfl ((nodup_eraseDups _).mem_erase_iff.mp waiting).1
    | cons => exact Nat.succ_pos _
  · obtain ⟨k, rfl⟩ := Nat.exists_eq_succ_of_ne_zero (Nat.ne_of_gt farther)
    obtain ⟨b, _, occurs⟩ := distant.exists_before
    obtain ⟨rule, member, _, inside⟩ := mem_mentions.mp occurs
    have known := List.mem_eraseDups.mpr (mem_names_of_mem_body member inside)
    refine (List.mem_erase_of_ne ?_).mpr known
    rintro rfl
    exact Nat.not_succ_le_zero k (distant.shortest 0 .nil)

/-- What the start symbol reaches is found without repetition, the start symbol first and the
nearest before what is farther away. -/
theorem reachable_ordered (found : g.reachable = .ok reached)
    (started : g.requireStart = .ok start) :
    reached.Nodup ∧ reached.head? = some start ∧ ∃ distance : Name → Nat,
      (∀ n ∈ reached, Distant (Mentioning g.mentions) start (distance n) n) ∧
        reached.Pairwise (distance · ≤ distance ·) := by
  obtain ⟨plain, first, started', reached_iff⟩ := reachable_eq_ok found
  obtain rfl : start = first := Except.ok.inj (started.symm.trans started')
  obtain rfl := Except.ok.inj ((reachable_eq plain started).symm.trans found)
  have apart : (g.names.eraseDups.erase start).Nodup := (nodup_eraseDups _).erase start
  have total : ∀ n, ∃ k, ∀ j, Distant (Mentioning g.mentions) start j n → k = j := by
    intro n
    by_cases some : ∃ k, Distant (Mentioning g.mentions) start k n
    · obtain ⟨k, distant⟩ := some
      exact ⟨k, fun j again => distant.unique again⟩
    · exact ⟨0, fun j distant => absurd ⟨j, distant⟩ some⟩
  choose distance measured using total
  refine ⟨nodup_breadthFirst ?_, head?_breadthFirst, distance, fun n listed => ?_, ?_⟩
  · exact List.nodup_cons.mpr ⟨(nodup_eraseDups _).not_mem_erase, apart⟩
  · obtain ⟨_, chain⟩ := Chain.exists_of_reflTransGen ((reached_iff n).mp listed)
    obtain ⟨k, _, distant⟩ := chain.exists_distant
    rwa [measured n k distant]
  · exact ((layer_start g start).nondecreasing apart measured).1

end Grammar
end Ebnf
