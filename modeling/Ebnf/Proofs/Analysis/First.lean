import Mathlib.Data.List.Basic
import Ebnf.Analysis.First
import Ebnf.Proofs.Analysis.Realizability
import Ebnf.Proofs.Language.Opening

/-! FIRST sets are exact: a non-terminal is nullable if and only if it can vanish, and a terminal
is in a FIRST set if and only if it opens a sentence that is derived. What saturation takes in is
derived; in the other direction a derivation is followed backwards, from a sentence that vanishes
or opens as it stands to the one it is derived from. -/
namespace Ebnf

variable {g : Grammar} {s t : Sentence} {known begun : List Name} {x : Terminal} {n : Name}

/-! What is said of a sentence when the nullable non-terminals are known. -/

namespace Sentence

@[simp] theorem vanishes_append :
    (s ++ t).vanishes known = (s.vanishes known && t.vanishes known) :=
  List.all_append

theorem vanishes_of_visible (nothing : s.visible = []) : s.vanishes known = true := by
  refine List.all_eq_true.mpr fun a member => ?_
  obtain rfl : a = .epsilon := by simpa using List.filter_eq_nil_iff.mp nothing a member
  rfl

theorem vanishes_cons_nonTerminal :
    vanishes known (.nonTerminal n :: s) = (decide (n ∈ known) && s.vanishes known) := rfl

@[simp] theorem vanishes_nonTerminal : vanishes known [.nonTerminal n] = true ↔ n ∈ known := by
  simp [vanishes]

@[simp] theorem begins_nonTerminal : begins known begun x [.nonTerminal n] = true ↔ n ∈ begun := by
  simp [begins]

/-- Shorthand is passed over as if it could vanish, so there may be none in front. -/
theorem begins_append (plain : s.hasShorthand = false) :
    (s ++ t).begins known begun x = true ↔
      s.begins known begun x = true ∨ s.vanishes known = true ∧ t.begins known begun x = true := by
  induction s with
  | nil => simp [begins, vanishes]
  | cons a s ih =>
    rw [plain_cons] at plain
    have ih := ih plain.2
    cases a with
    | terminal y => simp [begins, vanishes]
    | epsilon => simpa [begins, vanishes] using ih
    | nonTerminal m =>
      simp only [List.cons_append, begins, vanishes_cons_nonTerminal, Bool.or_eq_true,
        Bool.and_eq_true, ih, and_or_left, or_assoc, and_assoc]
    | bracket | alternative => simp [Symbol.isShorthand] at plain

theorem begins_of_visible {rest : Sentence} (first : s.visible = .terminal x :: rest) :
    s.begins known begun x = true := by
  obtain ⟨before, after, rfl, hidden, _⟩ := List.filter_eq_cons_iff.mp first
  have nothing : visible before = [] := List.filter_eq_nil_iff.mpr hidden
  have plain : hasShorthand before = false := by
    refine List.any_eq_false.mpr fun a member => ?_
    obtain rfl : a = .epsilon := by simpa using hidden a member
    simp [Symbol.isShorthand]
  exact (begins_append plain).mpr (.inr ⟨vanishes_of_visible nothing, by simp [begins]⟩)

end Sentence

namespace Grammar

/-! Nullable non-terminals. -/

theorem vanishes_of_known (sound : ∀ k ∈ known, g.Vanishes [.nonTerminal k])
    (found : s.vanishes known = true) : g.Vanishes s := by
  induction s with
  | nil => exact vanishes_nil
  | cons a s ih =>
    rw [Sentence.vanishes, List.all_cons, Bool.and_eq_true] at found
    refine vanishes_cons.mpr ⟨?_, ih found.2⟩
    cases a with
    | epsilon => exact vanishes_epsilon
    | nonTerminal k => exact sound k (of_decide_eq_true found.1)
    | terminal | bracket | alternative => cases found.1

theorem vanishes_nullable_of_step (step : g.Step s t) (found : t.vanishes g.nullable = true) :
    s.vanishes g.nullable = true := by
  obtain ⟨rule, member, before, after, rfl, rfl⟩ := step
  rw [← List.singleton_append]
  simp only [Sentence.vanishes_append, Bool.and_eq_true, Sentence.vanishes_nonTerminal] at found ⊢
  obtain ⟨⟨front, body⟩, back⟩ := found
  refine ⟨front, ?_, back⟩
  exact mem_saturate_of_supports (head_mem_heads member)
    (List.any_eq_true.mpr ⟨rule, mem_rulesOf.mpr ⟨member, rfl⟩, body⟩)

theorem vanishes_nullable_of_vanishes (vanishes : g.Vanishes s) :
    s.vanishes g.nullable = true := by
  obtain ⟨t, derives, nothing⟩ := vanishes
  induction derives using Relation.ReflTransGen.head_induction_on with
  | refl => exact Sentence.vanishes_of_visible nothing
  | head step _ ih => exact vanishes_nullable_of_step step ih

theorem mem_nullable : n ∈ g.nullable ↔ g.Vanishes [.nonTerminal n] := by
  constructor
  · intro found
    refine saturate_sound (P := fun k => g.Vanishes [.nonTerminal k]) ?_ (by simp) n found
    intro known head _ sound supported
    obtain ⟨rule, listed, body⟩ := List.any_eq_true.mp supported
    obtain ⟨member, rfl⟩ := mem_rulesOf.mp listed
    exact .of_body member (vanishes_of_known sound body)
  · exact fun vanishes => Sentence.vanishes_nonTerminal.mp (vanishes_nullable_of_vanishes vanishes)

theorem vanishes_nullable_iff : s.vanishes g.nullable = true ↔ g.Vanishes s :=
  ⟨vanishes_of_known fun _ => mem_nullable.mp, vanishes_nullable_of_vanishes⟩

/-! Non-terminals that a terminal begins. -/

theorem Opens.of_body {rule : Rule} (member : rule ∈ g.rules) (opens : g.Opens rule.body x) :
    g.Opens [.nonTerminal rule.head] x :=
  opens.of_derives (.single (step_nonTerminal.mpr ⟨rule, member, rfl, rfl⟩))

theorem opens_of_begins (sound : ∀ k ∈ begun, g.Opens [.nonTerminal k] x)
    (plain : s.hasShorthand = false) (found : s.begins g.nullable begun x = true) :
    g.Opens s x := by
  induction s with
  | nil => cases found
  | cons a s ih =>
    rw [Sentence.plain_cons] at plain
    rw [opens_cons]
    cases a with
    | terminal y => exact .inl (opens_terminal.mpr (of_decide_eq_true found))
    | epsilon => exact .inr ⟨vanishes_epsilon, ih plain.2 found⟩
    | nonTerminal k =>
      simp only [Sentence.begins, Bool.or_eq_true, Bool.and_eq_true, decide_eq_true_eq] at found
      exact found.imp (sound k) (And.imp mem_nullable.mp (ih plain.2))
    | bracket | alternative => simp [Symbol.isShorthand] at plain

variable (plain : g.hasShorthand = false)
include plain

theorem begins_of_step (step : g.Step s t) (front : s.hasShorthand = false)
    (found : t.begins g.nullable (g.begunBy g.nullable x) x = true) :
    s.begins g.nullable (g.begunBy g.nullable x) x = true := by
  obtain ⟨rule, member, before, after, rfl, rfl⟩ := step
  have body : rule.body.hasShorthand = false := plain_of_mem plain member
  have before : before.hasShorthand = false := (Sentence.plain_append.mp front).1
  rw [List.append_assoc, Sentence.begins_append before, Sentence.begins_append body] at found
  rw [← List.singleton_append, Sentence.begins_append before,
    Sentence.begins_append (s := [.nonTerminal rule.head]) rfl, Sentence.begins_nonTerminal,
    Sentence.vanishes_nonTerminal]
  refine found.imp_right (And.imp_right fun later => later.imp ?_ (And.imp_left ?_))
  · exact fun inside => mem_saturate_of_supports (head_mem_heads member)
      (List.any_eq_true.mpr ⟨rule, mem_rulesOf.mpr ⟨member, rfl⟩, inside⟩)
  · exact fun inside => mem_nullable.mpr (.of_body member (vanishes_nullable_iff.mp inside))

theorem begins_of_opens (opens : g.Opens s x) (front : s.hasShorthand = false) :
    s.begins g.nullable (g.begunBy g.nullable x) x = true := by
  obtain ⟨t, rest, derives, first⟩ := opens
  induction derives using Relation.ReflTransGen.head_induction_on with
  | refl => exact Sentence.begins_of_visible first
  | head step _ ih => exact begins_of_step plain step front (ih (step.plain plain front))

theorem mem_begunBy : n ∈ g.begunBy g.nullable x ↔ g.Opens [.nonTerminal n] x := by
  constructor
  · intro found
    refine saturate_sound (P := fun k => g.Opens [.nonTerminal k] x) ?_ (by simp) n found
    intro begun head _ sound supported
    obtain ⟨rule, listed, body⟩ := List.any_eq_true.mp supported
    obtain ⟨member, rfl⟩ := mem_rulesOf.mp listed
    exact .of_body member (opens_of_begins sound (plain_of_mem plain member) body)
  · exact fun opens => Sentence.begins_nonTerminal.mp (begins_of_opens plain opens rfl)

theorem begins_begunBy_iff (front : s.hasShorthand = false) :
    s.begins g.nullable (g.begunBy g.nullable x) x = true ↔ g.Opens s x :=
  ⟨opens_of_begins (fun _ => (mem_begunBy plain).mp) front,
    fun opens => begins_of_opens plain opens front⟩

end Grammar

/-! Listings and sequences. -/

namespace Terminal

theorem mem_insert {ts : List Terminal} {y : Terminal} :
    x ∈ listing.insert ts y ↔ x ∈ ts ∨ x = y := by
  induction ts with
  | nil => simp [listing.insert]
  | cons z ts ih =>
    rw [listing.insert]
    split
    · next same =>
      subst same
      exact (or_iff_left_of_imp fun here => here ▸ List.mem_cons_self).symm
    · split
      · simp only [List.mem_cons]
        exact or_comm
      · rw [List.mem_cons, ih, List.mem_cons, or_assoc]

theorem mem_listing {ts : List Terminal} : x ∈ listing ts ↔ x ∈ ts := by
  suffices grown : ∀ before, x ∈ ts.foldl listing.insert before ↔ x ∈ before ∨ x ∈ ts by
    exact (grown []).trans (or_iff_right List.not_mem_nil)
  induction ts with
  | nil => simp
  | cons y ts ih =>
    intro before
    rw [List.foldl_cons, ih, mem_insert, List.mem_cons, or_assoc]

end Terminal

namespace Item

@[simp] theorem filterMap_symbol?_ofSymbols : (ofSymbols s).filterMap symbol? = s := by
  rw [ofSymbols, List.filterMap_map]
  exact List.filterMap_some

theorem meetsShorthand_ofSymbols {b : Beginnings} (front : s.hasShorthand = false) :
    b.meetsShorthand (ofSymbols s) = false := by
  induction s with
  | nil => rfl
  | cons a s ih =>
    rw [Sentence.plain_cons] at front
    have rest := ih front.2
    cases a with
    | terminal => rfl
    | epsilon => exact rest
    | nonTerminal m =>
      change (decide (m ∈ b.nullable) && b.meetsShorthand (ofSymbols s)) = false
      rw [rest, Bool.and_false]
    | bracket | alternative => simp [Symbol.isShorthand] at front

end Item

namespace Grammar

/-! What is known about the beginnings of a grammar. -/

variable {b : Beginnings}

theorem beginnings_eq_ok : g.beginnings = .ok b ↔ g.hasShorthand = false ∧
    b = ⟨g.nullable, g.terminals.map fun t => (t, g.begunBy g.nullable t)⟩ := by
  simp only [beginnings, requirePlain]
  cases g.hasShorthand <;> simp [bind, Except.bind, pure, Except.pure, eq_comm]

variable (found : g.beginnings = .ok b)
include found

theorem vanishes_beginnings_iff : s.vanishes b.nullable = true ↔ g.Vanishes s := by
  obtain ⟨_, rfl⟩ := beginnings_eq_ok.mp found
  exact vanishes_nullable_iff

/-- A terminal that is in no body is not in the table, and begins nothing. -/
theorem begunBy_beginnings : b.begunBy x = g.begunBy g.nullable x := by
  obtain ⟨plain, rfl⟩ := beginnings_eq_ok.mp found
  by_cases occurs : x ∈ g.terminals
  · simp [Beginnings.begunBy, List.lookup_graph _ occurs]
  · have nothing : g.begunBy g.nullable x = [] := List.eq_nil_iff_forall_not_mem.mpr
      fun n begun => occurs ((mem_begunBy plain).mp begun).mem_terminals
    have missing : (g.terminals.map fun t => (t, g.begunBy g.nullable t)).lookup x = none := by
      rw [List.lookup_eq_none_iff]
      intro entry listed
      obtain ⟨t, member, rfl⟩ := List.mem_map.mp listed
      exact bne_iff_ne.mpr fun same => occurs (same ▸ member)
    rw [nothing, Beginnings.begunBy, missing]
    rfl

theorem begins_beginnings_iff (front : s.hasShorthand = false) :
    s.begins b.nullable (b.begunBy x) x = true ↔ g.Opens s x := by
  rw [begunBy_beginnings found]
  obtain ⟨plain, rfl⟩ := beginnings_eq_ok.mp found
  exact begins_begunBy_iff plain front

theorem mem_ofName : x ∈ b.ofName n ↔ g.Opens [.nonTerminal n] x := by
  obtain ⟨plain, rfl⟩ := beginnings_eq_ok.mp found
  rw [← mem_begunBy plain]
  simp only [Beginnings.ofName, List.mem_map, List.mem_filter, decide_eq_true_eq]
  constructor
  · rintro ⟨_, ⟨⟨t, _, rfl⟩, begun⟩, rfl⟩
    exact begun
  · intro begun
    exact ⟨_, ⟨⟨x, ((mem_begunBy plain).mp begun).mem_terminals, rfl⟩, begun⟩, rfl⟩

theorem mem_ofSentence (front : s.hasShorthand = false) :
    x ∈ b.ofSentence s ↔ g.Opens s x := by
  induction s with
  | nil => simp [Beginnings.ofSentence]
  | cons a s ih =>
    rw [Sentence.plain_cons] at front
    have rest := ih front.2
    rw [opens_cons]
    cases a with
    | terminal y => simp [Beginnings.ofSentence, eq_comm]
    | epsilon => simpa [Beginnings.ofSentence] using rest
    | nonTerminal m =>
      rw [Beginnings.ofSentence, List.mem_append, mem_ofName found,
        ← vanishes_beginnings_iff found, Sentence.vanishes_nonTerminal]
      split
      · next nullable => simp [nullable, rest]
      · next visible => simp [visible]
    | bracket | alternative => simp [Symbol.isShorthand] at front

omit found

/-- The FIRST sets of a grammar without shorthand are listed by head. A terminal is in a set if and
only if it opens what the non-terminal derives, and the set contains ε if and only if the
non-terminal can vanish. The same is found for every sequence without shorthand. -/
theorem firstSets_exact (plain : g.hasShorthand = false) :
    (∃ sets, g.firstSets = .ok sets ∧ g.ListsHeads (sets.map FirstSet.symbol) ∧
      ∀ set ∈ sets, (∀ x, x ∈ set.terminals ↔ g.Opens [.nonTerminal set.symbol] x) ∧
        (set.containsEpsilon = true ↔ g.Vanishes [.nonTerminal set.symbol])) ∧
    ∀ s : Sentence, s.hasShorthand = false → ∃ terminals vanishes,
      g.firstOf (Item.ofSymbols s) = .ok (terminals, vanishes) ∧
        (∀ x, x ∈ terminals ↔ g.Opens s x) ∧ (vanishes = true ↔ g.Vanishes s) := by
  obtain ⟨b, found⟩ : ∃ b, g.beginnings = .ok b := ⟨_, beginnings_eq_ok.mpr ⟨plain, rfl⟩⟩
  constructor
  · refine ⟨g.heads.map fun head => .of head (b.ofName head) (head ∈ b.nullable), ?_, ?_, ?_⟩
    · simp [firstSets, found, bind, Except.bind, pure, Except.pure]
    · rw [List.map_map, show FirstSet.symbol ∘ _ = id from rfl, List.map_id]
      exact listsHeads_heads g
    · intro set listed
      obtain ⟨head, _, rfl⟩ := List.mem_map.mp listed
      refine ⟨fun x => Terminal.mem_listing.trans (mem_ofName found), ?_⟩
      change decide (head ∈ b.nullable) = true ↔ g.Vanishes [.nonTerminal head]
      rw [decide_eq_true_eq, ← Sentence.vanishes_nonTerminal, vanishes_beginnings_iff found]
  · intro s front
    refine ⟨Terminal.listing (b.ofSentence s), s.vanishes b.nullable, ?_, fun x => ?_, ?_⟩
    · simp [firstOf, found, mapError_ok, bind, Except.bind, pure, Except.pure,
        Item.meetsShorthand_ofSymbols front]
    · exact Terminal.mem_listing.trans (mem_ofSentence found front)
    · exact vanishes_beginnings_iff found

/-- `F → G F x`, `F → G`, `G → y` and `G → ε`. All that stands before `x` can vanish, and `F` comes
back to itself behind `G`. -/
def recessed : Grammar :=
  .ofRules [⟨⟨"F", by decide⟩, .nonTerminal ⟨"G", by decide⟩,
      [.nonTerminal ⟨"F", by decide⟩, .terminal ⟨"x", none⟩]⟩,
    ⟨⟨"F", by decide⟩, .nonTerminal ⟨"G", by decide⟩, []⟩,
    ⟨⟨"G", by decide⟩, .terminal ⟨"y", none⟩, []⟩,
    ⟨⟨"G", by decide⟩, .epsilon, []⟩] none

theorem recessed_vanishes : recessed.Vanishes [.nonTerminal ⟨"F", by decide⟩] ∧
    recessed.Vanishes [.nonTerminal ⟨"G", by decide⟩] := by
  have ending : (⟨⟨"G", by decide⟩, .epsilon, []⟩ : Rule) ∈ recessed.rules := by
    simp [recessed, ofRules]
  have unit : (⟨⟨"F", by decide⟩, .nonTerminal ⟨"G", by decide⟩, []⟩ : Rule) ∈ recessed.rules := by
    simp [recessed, ofRules]
  have gone := Vanishes.of_body ending vanishes_epsilon
  exact ⟨.of_body unit gone, gone⟩

theorem firstSets_recessed : recessed.hasShorthand = false ∧
    (∃ sets, recessed.firstSets = .ok sets ∧ ∃ set ∈ sets, set.symbol = ⟨"F", by decide⟩ ∧
      ⟨"x", none⟩ ∈ set.terminals ∧ set.containsEpsilon = true) ∧
    ∃ terminals vanishes, recessed.firstOf [.symbol (.nonTerminal ⟨"G", by decide⟩),
      .symbol (.terminal ⟨"z", none⟩)] = .ok (terminals, vanishes) ∧
        ⟨"z", none⟩ ∈ terminals ∧ vanishes = false := by
  have plain : recessed.hasShorthand = false := by decide
  obtain ⟨⟨sets, found, heads, exact⟩, sequences⟩ := firstSets_exact plain
  obtain ⟨gone, empty⟩ := recessed_vanishes
  refine ⟨plain, ⟨sets, found, ?_⟩, ?_⟩
  · have listed : (⟨"F", by decide⟩ : Name) ∈ sets.map FirstSet.symbol :=
      (heads.1 _).mpr ⟨_, List.mem_cons_self, rfl⟩
    obtain ⟨set, member, named⟩ := List.mem_map.mp listed
    obtain ⟨opened, vanishes⟩ := exact set member
    rw [named] at opened vanishes
    have body : recessed.Opens [.nonTerminal ⟨"G", by decide⟩, .nonTerminal ⟨"F", by decide⟩,
        .terminal ⟨"x", none⟩] ⟨"x", none⟩ :=
      opens_cons.mpr (.inr ⟨empty, opens_cons.mpr (.inr ⟨gone, opens_terminal.mpr rfl⟩)⟩)
    refine ⟨set, member, named, (opened _).mpr ?_, vanishes.mpr gone⟩
    have first : (⟨⟨"F", by decide⟩, .nonTerminal ⟨"G", by decide⟩,
        [.nonTerminal ⟨"F", by decide⟩, .terminal ⟨"x", none⟩]⟩ : Rule) ∈ recessed.rules :=
      List.mem_cons_self
    exact .of_body first body
  · obtain ⟨terminals, vanishes, ran, opened, nothing⟩ :=
      sequences [.nonTerminal ⟨"G", by decide⟩, .terminal ⟨"z", none⟩] rfl
    refine ⟨terminals, vanishes, ran, (opened _).mpr ?_, Bool.eq_false_iff.mpr fun all => ?_⟩
    · exact opens_cons.mpr (.inr ⟨empty, opens_terminal.mpr rfl⟩)
    · exact not_vanishes_terminal (vanishes_cons.mp (nothing.mp all)).2

end Grammar
end Ebnf
