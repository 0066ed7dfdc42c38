import Mathlib
import Ebnf.Language.Strategy
import Ebnf.Proofs.Language.Interpretation
import Ebnf.Proofs.Language.Opening
import Ebnf.Proofs.Sentence.Edits

/-! A strategy loses no words. Sentences one behind the other derive independently, so the steps of
a derivation that ends in a word can be put in order: from the left, all that comes of the first
symbol before anything is done to the second, or from the right, the other way around. Where the
strategy has to act, what lies on its side is then a word already. -/
namespace Ebnf

variable {g : Grammar} {s t u before after front back : Sentence} {v w : List Terminal}
  {rule : Rule} {rules more : List Rule} {strategy : Strategy} {d : Derivation} {a : Symbol}

namespace Sentence

@[simp] theorem visible_terminal {x : Terminal} :
    visible (.terminal x :: s) = .terminal x :: s.visible :=
  List.filter_cons_of_pos (by simp)

@[simp] theorem visible_epsilon : visible (.epsilon :: s) = s.visible :=
  List.filter_cons_of_neg (by simp)

@[simp] theorem visible_terminals : visible (w.map .terminal) = w.map .terminal :=
  List.filter_eq_self.mpr (by simp)

@[simp] theorem visible_strip : (strip s).visible = s.visible := by
  unfold strip visible
  split
  · next nothing => rw [nothing]; simp
  · simp

theorem mem_visible : a ∈ s.visible ↔ a ∈ s ∧ a ≠ .epsilon := by
  simp [visible]

/-! Single steps. -/

theorem exists_deriveLeftmost (shown : s.visible = front ++ .nonTerminal rule.head :: back)
    (fixed : ∀ n, .nonTerminal n ∉ front) : ∃ d, s.deriveLeftmost rule = .ok d ∧
      d.derived.visible = front ++ rule.body.visible ++ back := by
  obtain ⟨before, after, rfl, rfl, rfl⟩ := exists_of_visible shown
  have none_before (n : Name) : .nonTerminal n ∉ before := fun member =>
    fixed n (mem_visible.mpr ⟨member, by simp⟩)
  exact ⟨_, deriveLeftmost_eq_ok.mpr ⟨before, after, rfl, none_before, rfl⟩, by simp⟩

theorem exists_deriveRightmost (shown : s.visible = front ++ .nonTerminal rule.head :: back)
    (fixed : ∀ n, .nonTerminal n ∉ back) : ∃ d, s.deriveRightmost rule = .ok d ∧
      d.derived.visible = front ++ rule.body.visible ++ back := by
  obtain ⟨before, after, rfl, rfl, rfl⟩ := exists_of_visible shown
  have none_after (n : Name) : .nonTerminal n ∉ after := fun member =>
    fixed n (mem_visible.mpr ⟨member, by simp⟩)
  exact ⟨_, deriveRightmost_eq_ok.mpr ⟨before, after, rfl, none_after, rfl⟩, by simp⟩

theorem deriveBy_append : s.deriveBy strategy (rules ++ more) =
    (s.deriveBy strategy rules).bind fun t => t.deriveBy strategy more := by
  induction rules generalizing s with
  | nil => rfl
  | cons rule rules ih =>
    cases stepped : strategy s rule with
    | error e => simp [deriveBy, stepped, bind, Except.bind]
    | ok d => simpa [deriveBy, stepped, bind, Except.bind] using ih

end Sentence

/-- A strategy that applies each rule to its head, wherever that stands. -/
def Strategy.Sound (strategy : Strategy) : Prop :=
  ∀ {s rule d}, strategy s rule = .ok d → ∃ before after,
    s = before ++ .nonTerminal rule.head :: after ∧
      d.derived = Sentence.strip (before ++ rule.body ++ after)

theorem Sentence.deriveLeftmost_sound : Strategy.Sound deriveLeftmost := by
  intro s rule d stepped
  obtain ⟨before, after, rfl, _, rfl⟩ := deriveLeftmost_eq_ok.mp stepped
  exact ⟨before, after, rfl, derived_append before after rule⟩

theorem Sentence.deriveRightmost_sound : Strategy.Sound deriveRightmost := by
  intro s rule d stepped
  obtain ⟨before, after, rfl, _, rfl⟩ := deriveRightmost_eq_ok.mp stepped
  exact ⟨before, after, rfl, derived_append before after rule⟩

namespace Grammar

open Interpretation

/-! Sequences of steps. -/

theorem leadsBy_of_visible_eq (shown : s.visible = t) : g.LeadsBy strategy s t :=
  ⟨[], s, by simp, rfl, shown⟩

theorem LeadsBy.head (member : rule ∈ g.rules) (stepped : strategy s rule = .ok d)
    (later : g.LeadsBy strategy d.derived t) : g.LeadsBy strategy s t := by
  obtain ⟨rules, u, listed, ran, shown⟩ := later
  refine ⟨rule :: rules, u, List.forall_mem_cons.mpr ⟨member, listed⟩, ?_, shown⟩
  simpa [Sentence.deriveBy, stepped, bind, Except.bind] using ran

theorem LeadsBy.trans (first : g.LeadsBy strategy s t)
    (later : ∀ u : Sentence, u.visible = t → g.LeadsBy strategy u after) :
    g.LeadsBy strategy s after := by
  obtain ⟨rules, u, listed, ran, shown⟩ := first
  obtain ⟨more, u', allowed, further, ends⟩ := later u shown
  refine ⟨rules ++ more, u', List.forall_mem_append.mpr ⟨listed, allowed⟩, ?_, ends⟩
  simpa [Sentence.deriveBy_append, ran, Except.bind] using further

/-! What a strategy derives can be read as what the sentence yields. -/

theorem yields_terminals : g.Yields (w.map .terminal) w := by
  induction w with
  | nil => exact .nil
  | cons x w ih => exact .terminal ih

theorem yields_of_visible_eq (shown : s.visible = w.map .terminal) : g.Yields s w := by
  have read : g.meaning.Reads s.visible w := shown ▸ yields_iff_reads.mp yields_terminals
  exact yields_iff_reads.mpr (reads_visible.mp read)

/-- Putting a body back together to its head keeps the words. -/
theorem yields_of_body (member : rule ∈ g.rules)
    (yields : g.Yields (before ++ rule.body ++ after) w) :
    g.Yields (before ++ .nonTerminal rule.head :: after) w := by
  rw [yields_iff_reads] at yields ⊢
  obtain ⟨_, z, rfl, front, last⟩ := reads_append.mp yields
  obtain ⟨x, y, rfl, first, middle⟩ := reads_append.mp front
  have spelled : g.Spells rule.head y := spells_of_yields member (yields_iff_reads.mpr middle)
  rw [List.append_assoc]
  exact first.append (.nonTerminal spelled last)

theorem Derives.yields (derives : g.Derives s t) (yields : g.Yields t w) : g.Yields s w := by
  induction derives using Relation.ReflTransGen.head_induction_on with
  | refl => exact yields
  | head step _ ih =>
    obtain ⟨rule, member, before, after, rfl, rfl⟩ := step
    exact yields_of_body member ih

theorem LeadsBy.yields (sound : strategy.Sound) (leads : g.LeadsBy strategy s (w.map .terminal)) :
    g.Yields s w := by
  obtain ⟨rules, u, listed, ran, shown⟩ := leads
  induction rules generalizing s with
  | nil =>
    cases ran
    exact yields_of_visible_eq shown
  | cons rule rules ih =>
    obtain ⟨member, listed⟩ := List.forall_mem_cons.mp listed
    cases stepped : strategy s rule with
    | error e => simp [Sentence.deriveBy, stepped, bind, Except.bind] at ran
    | ok d =>
      obtain ⟨before, after, rfl, derived⟩ := sound stepped
      have later : g.Yields d.derived w :=
        ih listed (by simpa [Sentence.deriveBy, stepped, bind, Except.bind] using ran)
      rw [yields_iff_reads, derived, reads_strip, ← yields_iff_reads] at later
      exact yields_of_body member later

/-! What a sentence yields can be derived in the order of either strategy. -/

/-- Around the part that has still to be derived there is a word on the left, and anything on the
right. -/
theorem Yields.leadsBy_deriveLeftmost (plain : g.hasShorthand = false)
    (bare : s.hasShorthand = false) (yields : g.Yields s w)
    (shown : u.visible = v.map .terminal ++ s.visible ++ back) :
    g.LeadsBy Sentence.deriveLeftmost u ((v ++ w).map .terminal ++ back) := by
  induction yields generalizing u v back with
  | nil => exact leadsBy_of_visible_eq (by simpa [Sentence.visible] using shown)
  | @terminal x rest w _ ih =>
    rw [Sentence.plain_cons] at bare
    have read : u.visible = (v ++ [x]).map .terminal ++ rest.visible ++ back := by
      simpa using shown
    simpa using ih bare.2 read
  | epsilon _ ih =>
    rw [Sentence.plain_cons] at bare
    exact ih bare.2 (by simpa using shown)
  | @nonTerminal rule rest x w member _ _ body tail =>
    rw [Sentence.plain_cons] at bare
    have here : u.visible =
        v.map .terminal ++ .nonTerminal rule.head :: (rest.visible ++ back) := by
      simpa using shown
    obtain ⟨d, stepped, derived⟩ := Sentence.exists_deriveLeftmost here (by simp)
    have first := body (plain_of_mem plain member) derived
    refine .head member stepped (first.trans fun t shown => ?_)
    have behind : t.visible = (v ++ x).map .terminal ++ rest.visible ++ back := by
      simpa using shown
    simpa using tail bare.2 behind
  | group | option | optionOmitted | repetition | repetitionEnded | alternative =>
    simp [Sentence.plain_cons, Symbol.isShorthand] at bare

/-- Around the part that has still to be derived there is anything on the left, and a word on the
right. What stands behind the first symbol comes before it here. -/
theorem Yields.leadsBy_deriveRightmost (plain : g.hasShorthand = false)
    (bare : s.hasShorthand = false) (yields : g.Yields s w)
    (shown : u.visible = front ++ s.visible ++ v.map .terminal) :
    g.LeadsBy Sentence.deriveRightmost u (front ++ (w ++ v).map .terminal) := by
  induction yields generalizing u v front with
  | nil => exact leadsBy_of_visible_eq (by simpa [Sentence.visible] using shown)
  | @terminal x rest w _ ih =>
    rw [Sentence.plain_cons] at bare
    have read : u.visible = front ++ [.terminal x] ++ rest.visible ++ v.map .terminal := by
      simpa using shown
    have later := ih bare.2 read
    rwa [List.append_assoc] at later
  | epsilon _ ih =>
    rw [Sentence.plain_cons] at bare
    exact ih bare.2 (by simpa using shown)
  | @nonTerminal rule rest x w member _ _ body tail =>
    rw [Sentence.plain_cons] at bare
    have behind : u.visible =
        front ++ [.nonTerminal rule.head] ++ rest.visible ++ v.map .terminal := by
      simpa using shown
    refine (tail bare.2 behind).trans fun t shown => ?_
    have here : t.visible = front ++ .nonTerminal rule.head :: (w ++ v).map .terminal := by
      simpa using shown
    obtain ⟨d, stepped, derived⟩ := Sentence.exists_deriveRightmost here (by simp)
    exact .head member stepped (by simpa using body (plain_of_mem plain member) derived)
  | group | option | optionOmitted | repetition | repetitionEnded | alternative =>
    simp [Sentence.plain_cons, Symbol.isShorthand] at bare

theorem DerivesWord.append (left : g.DerivesWord s v) (right : g.DerivesWord t w) :
    g.DerivesWord (s ++ t) (v ++ w) := by
  obtain ⟨s', first, shown⟩ := left
  obtain ⟨t', second, also⟩ := right
  exact ⟨s' ++ t', Derives.append first second, by simp [shown, also]⟩

theorem DerivesWord.of_body (member : rule ∈ g.rules) (word : g.DerivesWord rule.body w) :
    g.DerivesWord [.nonTerminal rule.head] w := by
  obtain ⟨t, derives, shown⟩ := word
  exact ⟨t, .head (step_nonTerminal.mpr ⟨rule, member, rfl, rfl⟩) derives, shown⟩

/-- Without shorthand the words that a sentence yields are those that can be derived from it. -/
theorem derivesWord_iff (plain : g.hasShorthand = false) (bare : s.hasShorthand = false) :
    g.DerivesWord s w ↔ g.Yields s w := by
  constructor
  · rintro ⟨t, derives, shown⟩
    exact derives.yields (yields_of_visible_eq shown)
  · intro yields
    induction yields with
    | nil => exact ⟨[], .refl, rfl⟩
    | @terminal x _ _ _ ih =>
      rw [Sentence.plain_cons] at bare
      have here : g.DerivesWord [.terminal x] [x] :=
        ⟨[.terminal x], .refl, by simp [Sentence.visible]⟩
      exact here.append (ih bare.2)
    | epsilon _ ih =>
      rw [Sentence.plain_cons] at bare
      have here : g.DerivesWord [.epsilon] [] := ⟨[.epsilon], .refl, by simp [Sentence.visible]⟩
      exact here.append (ih bare.2)
    | nonTerminal member _ _ body tail =>
      rw [Sentence.plain_cons] at bare
      exact (body (plain_of_mem plain member)).of_body member |>.append (tail bare.2)
    | group | option | optionOmitted | repetition | repetitionEnded | alternative =>
      simp [Sentence.plain_cons, Symbol.isShorthand] at bare

/-- Deriving at the leftmost non-terminal each time, or at the rightmost, reaches all words that can
be derived at all, without a step that is refused, and no others. -/
theorem derivesWord_iff_leadsBy (plain : g.hasShorthand = false) (bare : s.hasShorthand = false) :
    (g.DerivesWord s w ↔ g.LeadsBy Sentence.deriveLeftmost s (w.map .terminal)) ∧
      (g.DerivesWord s w ↔ g.LeadsBy Sentence.deriveRightmost s (w.map .terminal)) := by
  rw [derivesWord_iff plain bare]
  refine ⟨⟨fun yields => ?_, fun leads => leads.yields Sentence.deriveLeftmost_sound⟩,
    fun yields => ?_, fun leads => leads.yields Sentence.deriveRightmost_sound⟩
  · have whole : s.visible = ([] : List Terminal).map .terminal ++ s.visible ++ [] := by simp
    simpa using yields.leadsBy_deriveLeftmost plain bare whole
  · have whole : s.visible = [] ++ s.visible ++ ([] : List Terminal).map .terminal := by simp
    simpa using yields.leadsBy_deriveRightmost plain bare whole

/-- `phrase → noun phrase`, `phrase → ε`, `noun → x` and `noun → y`. -/
def phrases : Grammar :=
  let phrase : Name := ⟨"phrase", by decide⟩
  let noun : Name := ⟨"noun", by decide⟩
  let token (text : String) : Symbol := .terminal ⟨text, none⟩
  .ofRules [⟨phrase, .nonTerminal noun, [.nonTerminal phrase]⟩, ⟨phrase, .epsilon, []⟩,
    ⟨noun, token "x", []⟩, ⟨noun, token "y", []⟩] none

/-- `phrase` comes to `x y` from the left, and so it does from the right. -/
theorem phrases_leadsBy :
    let s : Sentence := [.nonTerminal ⟨"phrase", by decide⟩]
    let w : List Terminal := [⟨"x", none⟩, ⟨"y", none⟩]
    phrases.hasShorthand = false ∧ s.hasShorthand = false ∧ phrases.DerivesWord s w ∧
      phrases.LeadsBy Sentence.deriveLeftmost s (w.map .terminal) ∧
      phrases.LeadsBy Sentence.deriveRightmost s (w.map .terminal) := by
  intro s w
  have plain : phrases.hasShorthand = false := by decide
  have bare : s.hasShorthand = false := by decide
  have derivable := derivesWord_iff_leadsBy (w := w) plain bare
  have leftmost : phrases.LeadsBy Sentence.deriveLeftmost s (w.map .terminal) := by
    let phrase : Name := ⟨"phrase", by decide⟩
    let noun : Name := ⟨"noun", by decide⟩
    let more : Rule := ⟨phrase, .nonTerminal noun, [.nonTerminal phrase]⟩
    let reads (text : String) : Rule := ⟨noun, .terminal ⟨text, none⟩, []⟩
    exact ⟨[more, reads "x", more, reads "y", ⟨phrase, .epsilon, []⟩], w.map .terminal,
      by decide +kernel, by cbv, Sentence.visible_terminals⟩
  have word : phrases.DerivesWord s w := derivable.1.mpr leftmost
  exact ⟨plain, bare, word, leftmost, derivable.2.mp word⟩

end Grammar

end Ebnf
