import Mathlib
import Ebnf.CommandLine.Arguments
import Ebnf.Proofs.Grammar.Writing
import Ebnf.Proofs.Pass.Augmentation

/-! What a pass leaves, read again from a document. A pass adds to the bodies nothing but
non-terminals, and looks for names that no rule mentions. In a document such a name can still be
taken for something else: the kinds of terminals have the same form, and a start symbol that stood
in no body may have the form of a literal or a bar. -/
namespace Ebnf

/-! The symbols that bodies are built from along a pass. -/

section Supply

variable {P : Symbol → Prop} {Q : List Item → Prop} {a : Symbol} {g g' : Grammar} {rule : Rule}
  (epsilon : P .epsilon) (names : ∀ name, P (.nonTerminal name))

include epsilon names

/-- The rules that take the place of shorthand are built from what is in it and non-terminals. -/
theorem Symbol.Built.of_mem_expansion {fresh : Name} {items : List Item} (built : a.Built P Q)
    (listed : items ∈ a.expansion fresh) {b : Symbol} (member : .symbol b ∈ items) :
    b.Built P Q := by
  have nothing (empty : items = [.symbol .epsilon]) : b.Built P Q := by
    obtain rfl : b = .epsilon := by simpa [empty] using member
    exact .simple rfl epsilon
  cases built with
  | @simple a plain holds =>
    obtain rfl : b = a := by
      cases a with
      | terminal | nonTerminal | epsilon =>
        rw [List.mem_singleton.mp listed] at member
        simpa using member
      | bracket | alternative => cases plain
    exact .simple plain holds
  | alternative _ inside => exact inside items listed b member
  | @bracket kind lead rest inside =>
    cases kind with
    | group =>
      rw [List.mem_singleton.mp listed, Item.mem_ofSymbols] at member
      exact inside b member
    | option =>
      rcases List.mem_cons.mp listed with rfl | empty
      · exact inside b (Item.mem_ofSymbols.mp member)
      · exact nothing (List.mem_singleton.mp empty)
    | repetition =>
      rcases List.mem_cons.mp listed with rfl | empty
      · rcases List.mem_append.mp (Item.mem_ofSymbols.mp member) with here | again
        · exact inside b here
        · obtain rfl : b = .nonTerminal fresh := List.mem_singleton.mp again
          exact .simple rfl (names fresh)
      · exact nothing (List.mem_singleton.mp empty)

namespace Grammar

theorem Built.of_supplies (built : g.Built P Q) (supplied : g.Supplies a) : a.Built P Q := by
  rcases supplied with rfl | ⟨name, rfl⟩ | ⟨rule, member, inside⟩
  · exact .simple rfl epsilon
  · exact .simple rfl (names name)
  · exact built rule member a inside

theorem Built.expanded {expansion : Expansion} (built : g.Built P Q) (folded : Item.Folded Q)
    (member : rule ∈ g.rules) (found : g.expansionOf? rule = some expansion) :
    (g.replaced rule expansion.rules).Built P Q := by
  intro r new a inside
  obtain ⟨_, before, after, body, _, rules⟩ := expansionOf?_eq_some found
  have old {b : Symbol} (occurs : b ∈ before ++ expansion.shorthand :: after) : b.Built P Q :=
    built rule member b (body ▸ occurs)
  rcases mem_of_mem_replaced new with made | kept
  · rw [rules] at made
    rcases List.mem_cons.mp made with rfl | made
    · rcases Rule.mem_body_ofBody inside with rfl | inside
      · exact .simple rfl epsilon
      · rcases List.mem_append.mp inside with front | back
        · exact old (List.mem_append_left _ front)
        · rcases List.mem_cons.mp back with rfl | back
          · exact .simple rfl (names _)
          · exact old (List.mem_append_right _ (List.mem_cons_of_mem _ back))
    · obtain ⟨items, listed, rfl⟩ := List.mem_map.mp made
      have shorthand := old (List.mem_append_right before List.mem_cons_self)
      rcases Rule.mem_body_ofBody inside with rfl | inside
      · exact .simple rfl epsilon
      · exact Sentence.built_of_mem_ofItems epsilon folded
          (fun _ => shorthand.of_mem_expansion epsilon names listed) inside
  · exact built r kept a inside

end Grammar

/-- A change builds bodies from symbols that were there, non-terminals and ε. -/
theorem Change.built {kind : Transformation} {events : List Event}
    (change : Change kind g events g') (folded : Item.Folded Q) (built : g.Built P Q) :
    g'.Built P Q := by
  rcases eq_or_ne kind .shorthand with rfl | other
  · cases change with
    | expansion member found => exact built.expanded epsilon names folded member found
    | loops kinds | direct kinds => exact kinds.elim
  · exact fun _ member _ inside => built.of_supplies epsilon names
      (change.supplies other member inside)

theorem Pass.run_built (pass : Pass) (limits : Limits) (folded : Item.Folded Q)
    (built : g.Built P Q) : (pass.run limits g).grammar.Built P Q :=
  (pass.run_path limits g).invariant (I := (·.Built P Q))
    (fun _ change => change.built epsilon names folded) built

end Supply

/-! Rules without shorthand. -/

theorem Sentence.isShorthand_of_mem {s : Sentence} {a : Symbol} (plain : s.hasShorthand = false)
    (inside : a ∈ s) : a.isShorthand = false := by
  simpa using List.any_eq_false.mp plain a inside

/-- A bar leaves shorthand behind. -/
theorem Sentence.hasShorthand_ofItems {items : List Item} (bar : .bar ∈ items) :
    (ofItems items).hasShorthand = true := by
  have several := Item.stretches_bar bar
  rcases parts : Item.stretches items with ⟨first, _ | ⟨second, others⟩⟩
  · exact absurd (by rw [parts]) several
  · simp [ofItems, parts, hasShorthand, Symbol.isShorthand]

theorem Symbol.documents_of_plain {s : Sentence} (plain : s.hasShorthand = false) :
    Symbol.documents s = .ok (s.map fun a => .text a.text) := by
  induction s with
  | nil => rfl
  | cons a s ih =>
    obtain ⟨simple, plain⟩ := Sentence.plain_cons.mp plain
    have first : a.document = .ok (.text a.text) := by
      cases a with
      | terminal | nonTerminal | epsilon => rfl
      | bracket | alternative => cases simple
    simp [Symbol.documents, first, ih plain, bind, Except.bind, pure, Except.pure]

namespace Vocabulary

variable {v : Vocabulary} {rule : Rule}

/-- A terminal has to be known, any other symbol need not. -/
def KnowsTerminal (v : Vocabulary) (a : Symbol) : Prop := ∀ t, a = .terminal t → v.Knows a

theorem Knows.terminal {a : Symbol} (known : v.Knows a) : v.KnowsTerminal a := fun _ _ => known

theorem knowsTerminal_epsilon : v.KnowsTerminal .epsilon := nofun

theorem knowsTerminal_nonTerminal (name : Name) : v.KnowsTerminal (.nonTerminal name) := nofun

/-- A rule without shorthand is rewritten as itself if and only if all symbols in it are known. -/
theorem rewrites_self_iff (plain : rule.body.hasShorthand = false) :
    v.Rewrites rule rule ↔ ∀ a ∈ rule.body, v.Knows a := by
  constructor
  · rintro ⟨ds, written, read⟩
    cases (Symbol.documents_of_plain plain).symm.trans written
    obtain ⟨items, read, made⟩ := rule_list_eq_ok.mp read
    rw [items_eq_ok, List.forall₂_map_left_iff] at read
    have barless : .bar ∉ items := by
      intro bar
      have shorthand := Sentence.hasShorthand_ofItems bar
      have some : Sentence.ofItems items ≠ [] := by
        intro none
        simp [none, Sentence.hasShorthand] at shorthand
      rw [← made, Rule.ofItems, Rule.body_ofBody some, shorthand] at plain
      cases plain
    obtain ⟨s, rfl⟩ := Item.exists_symbols barless
    have some : s ≠ [] := by
      rintro rfl
      cases read
    rw [Rule.ofItems, Sentence.ofItems_ofSymbols] at made
    have body : rule.body = s := by rw [← made, Rule.body_ofBody some]
    rw [body, Item.ofSymbols, List.forall₂_map_right_iff, List.forall₂_same] at read
    intro a inside
    exact word_eq_ok.mp (read a (body ▸ inside))
  · intro known
    refine rewrites_self fun a inside => readsBack_of_built (.simple ?_ (known a inside))
    exact Sentence.isShorthand_of_mem plain inside

end Vocabulary

namespace Grammar

variable {g r : Grammar} {Q : List Item → Prop}

/-- A grammar without shorthand can be written, and what is written is read with the same rules for
every name if and only if all symbols are known by the words that are written with it. -/
theorem exists_reread_iff (plain : g.hasShorthand = false) (startable : g.Startable) :
    ∃ d, g.toDocument = .ok d ∧
      ((∃ g', ofDocument d = .ok g' ∧ g'.start = g.start ∧
          ∀ name, g'.rulesOf name = g.rulesOf name) ↔
        ∀ rule ∈ g.rules, ∀ a ∈ rule.body, g.vocabulary.Knows a) := by
  have rewrites {rule : Rule} (member : rule ∈ g.rules) :
      g.vocabulary.Rewrites rule rule ↔ ∀ a ∈ rule.body, g.vocabulary.Knows a :=
    Vocabulary.rewrites_self_iff (plain_of_mem plain member)
  obtain ⟨d, made⟩ : ∃ d, g.toDocument = .ok d := exists_toDocument fun rule member =>
    ⟨_, Symbol.documents_of_plain (plain_of_mem plain member)⟩
  refine ⟨d, made, ?_, ?_⟩
  · rintro ⟨g', read, _, same⟩ rule member
    exact (rewrites member).mp (rewrites_of_reread startable made read same rule member)
  · intro known
    have read := ofDocument_toDocument startable made fun rule member =>
      (rewrites member).mpr (known rule member)
    exact ⟨_, read, rfl, fun _ => rulesOf_regrouped⟩

/-- Where the terminals are those of a grammar that was read, only names that are new to the bodies
may be unknown. -/
theorem knows_iff {v : Vocabulary} (plain : r.hasShorthand = false) (read : g.Built v.Knows Q)
    (built : r.Built v.KnowsTerminal Q) :
    (∀ rule ∈ r.rules, ∀ a ∈ rule.body, r.vocabulary.Knows a) ↔
      ∀ name, r.OccursIn name → ¬ g.OccursIn name →
        IsBareWord name.text ∧ name.text ∉ r.terminalKinds := by
  have knows {name : Name} : r.vocabulary.Knows (.nonTerminal name) ↔
      IsBareWord name.text ∧ name.text ∉ r.terminalKinds := by
    rw [Vocabulary.knows_nonTerminal, Bool.eq_false_iff, Ne, isTerminal_vocabulary]
  constructor
  · rintro known name ⟨rule, member, inside⟩ _
    have inside := (Symbol.mem_namesIn_of_plain (plain_of_mem plain member)).mp inside
    exact knows.mp (known rule member _ inside)
  · intro new rule member a inside
    have simple := Sentence.isShorthand_of_mem (plain_of_mem plain member) inside
    cases a with
    | epsilon => exact Vocabulary.knows_epsilon
    | terminal t =>
      cases built rule member _ inside with
      | simple _ terminals =>
        have known := Vocabulary.knows_terminal.mp (terminals t rfl)
        refine Vocabulary.knows_terminal.mpr (known.imp_right ?_)
        rintro ⟨noLiteral, bare, _⟩
        refine ⟨noLiteral, bare, isTerminal_vocabulary.mpr (mem_terminalKinds.mpr ?_)⟩
        exact ⟨rule, member, _, inside, Symbol.mem_terminalKinds_terminal.mpr
          ⟨by simp [Terminal.literalText?, noLiteral], rfl⟩⟩
    | nonTerminal name =>
      rw [knows]
      by_cases old : g.OccursIn name
      · obtain ⟨rule', member', within⟩ := old
        obtain ⟨b, there, within⟩ := Symbol.mem_namesIn_iff.mp within
        have known := (read rule' member' b there).of_mem_names within
        exact ⟨(Vocabulary.knows_nonTerminal.mp known).1,
          notMem_terminalKinds built (fun t terminals => terminals t rfl) known⟩
      · exact new name ⟨rule, member, Symbol.mem_namesIn_of_mem inside⟩ old
    | bracket | alternative => cases simple

end Grammar

/-! The passes of the command line. -/

open Grammar

namespace Editing

variable {g : Grammar} {limits : Limits}

theorem ready_of_removeUnreachable (quiet : removeUnreachable.Quiet g ()) :
    g.hasShorthand = false ∧ g.Startable := by
  obtain ⟨plain, reached⟩ := quiet_removeUnreachable.mp quiet
  refine ⟨plain, fun some => ?_⟩
  obtain ⟨start, started, _⟩ := reached.resolve_left some
  exact ⟨start, started⟩

theorem ready_of_augmentStart (quiet : augmentStart.Quiet g ()) :
    g.hasShorthand = false ∧ g.Startable := by
  obtain ⟨plain, augmented⟩ := quiet_augmentStart.mp quiet
  refine ⟨plain, fun some => ?_⟩
  obtain ⟨start, _, started, _⟩ := augmented.resolve_left some
  exact ⟨start, started⟩

theorem ready_of_clean (quiet : (clean limits).Quiet g ()) :
    g.hasShorthand = false ∧ g.Startable := by
  obtain ⟨_, plain, _, reached, _⟩ := quiet_clean.mp quiet
  exact ready_of_removeUnreachable (quiet_removeUnreachable.mpr ⟨plain, reached⟩)

theorem ready_of_fix (quiet : (fix limits).Quiet g ()) :
    g.hasShorthand = false ∧ g.Startable := by
  obtain ⟨_, _, unreachable, _⟩ := quiet_fix.mp quiet
  exact ready_of_removeUnreachable unreachable

end Editing

namespace CommandLine

theorem Options.pass_cases (o : Options) : o.pass = .normalize ∨ o.pass = .cleanUntilQuiet ∨
    o.pass = .fixUntilQuiet ∨ o.pass = .prepareLR1 := by
  rcases o with ⟨_ | mode, _⟩
  · exact .inl rfl
  · cases mode <;> simp [Options.pass, Flag.pass?]

/-- What a pass of the command line leaves has no shorthand, and its start symbol heads a rule. -/
theorem Options.pass_ready (o : Options) (limits : Limits) (g : Grammar)
    (ended : (o.pass.run limits g).outcome = .ok ()) :
    let r := (o.pass.run limits g).grammar
    r.hasShorthand = false ∧ r.Startable := by
  rcases o.pass_cases with chosen | chosen | chosen | chosen
  all_goals rw [chosen] at ended ⊢
  · exact Editing.ready_of_clean (Editing.quiet_normalizeRound.mp
      (Editing.quiet_of_normalize ended)).2.1
  · exact Editing.ready_of_clean (Editing.untilQuiet_ok (fun _ => Editing.traced_clean) ended)
  · exact Editing.ready_of_fix (Editing.untilQuiet_ok (fun _ => Editing.traced_fix) ended)
  · obtain ⟨_, _, augmented⟩ := Editing.prepareLR1_leaves ⟨ended, rfl⟩
    exact Editing.ready_of_augmentStart (Editing.idempotent_augmentStart _ _ augmented)

/-- What a pass of the command line leaves of a grammar that was read can be written. What is
written is read again with the same start symbol and the same rules for every name if and only if
no name that is new to the bodies has the form of a bar or a literal or is the kind of a
terminal. -/
theorem Options.pass_reread (o : Options) (limits : Limits) (d : Document) (g : Grammar)
    (read : ofDocument d = .ok g) (ended : (o.pass.run limits g).outcome = .ok ()) :
    let r := (o.pass.run limits g).grammar
    ∃ d', r.toDocument = .ok d' ∧
      ((∃ g', ofDocument d' = .ok g' ∧ g'.start = r.start ∧
          ∀ name, g'.rulesOf name = r.rulesOf name) ↔
        ∀ name, r.OccursIn name → ¬ g.OccursIn name →
          IsBareWord name.text ∧ name.text ∉ r.terminalKinds) := by
  intro r
  obtain ⟨plain, startable⟩ := o.pass_ready limits g ended
  obtain ⟨v, known⟩ := exists_vocabulary read
  have folded : Item.Folded fun _ => True := fun _ => trivial
  have before : g.Built v.Knows fun _ => True :=
    known _ folded fun _ _ _ _ _ _ _ _ => trivial
  have terminals : g.Built v.KnowsTerminal fun _ => True := fun rule member a inside =>
    (before rule member a inside).mono fun _ => Vocabulary.Knows.terminal
  have after : r.Built v.KnowsTerminal fun _ => True :=
    o.pass.run_built Vocabulary.knowsTerminal_epsilon Vocabulary.knowsTerminal_nonTerminal limits
      folded terminals
  obtain ⟨d', made, iff⟩ := exists_reread_iff plain startable
  exact ⟨d', made, iff.trans (knows_iff plain before after)⟩

end CommandLine

/-- `X → X a` and `X → X′`, where `X′` heads no rule and so is the kind of a terminal. -/
def Document.overshadowed : Document :=
  .table [(.text "productions", .table [
    (.text "X", .list [.list [.text "X", .text "a"], .list [.text "X′"]])])]

namespace CommandLine

theorem Options.pass_reread_overshadowed :
    ∃ g, (ofDocument .overshadowed = .ok g ∧
      (Options.plain.pass.run (.ofCounts 2 2) g).outcome = .ok ()) ∧
    let r := (Options.plain.pass.run (.ofCounts 2 2) g).grammar
    ∃ d', r.toDocument = .ok d' ∧
      ((∃ g', ofDocument d' = .ok g' ∧ g'.start = r.start ∧
          ∀ name, g'.rulesOf name = r.rulesOf name) ↔
        ∀ name, r.OccursIn name → ¬ g.OccursIn name →
          IsBareWord name.text ∧ name.text ∉ r.terminalKinds) := by
  obtain ⟨g, read, ended⟩ : ∃ g, ofDocument .overshadowed = .ok g ∧
      (Options.plain.pass.run (.ofCounts 2 2) g).outcome = .ok () := ⟨_, rfl, by cbv⟩
  exact ⟨g, ⟨read, ended⟩, Options.plain.pass_reread _ _ g read ended⟩

/-- Normalization makes up the non-terminal `X′` for the rest of `X`. In what is written it cannot
be told from the terminal, and that is what it is read as. -/
theorem Options.pass_overshadowed :
    ∃ g d', ofDocument .overshadowed = .ok g ∧
      let run := Options.plain.pass.run (.ofCounts 2 2) g
      run.outcome = .ok () ∧ run.grammar.toDocument = .ok d' ∧
        ¬ ∃ g', ofDocument d' = .ok g' ∧ g'.start = run.grammar.start ∧
          ∀ name, g'.rulesOf name = run.grammar.rulesOf name := by
  obtain ⟨g, d', g', read, ended, made, reread, left, again⟩ : ∃ g d' g',
      ofDocument .overshadowed = .ok g ∧
      (Options.plain.pass.run (.ofCounts 2 2) g).outcome = .ok () ∧
      (Options.plain.pass.run (.ofCounts 2 2) g).grammar.toDocument = .ok d' ∧
      ofDocument d' = .ok g' ∧
      (Options.plain.pass.run (.ofCounts 2 2) g).grammar.rulesOf ⟨"X", by decide⟩ =
        [⟨⟨"X", by decide⟩, .terminal ⟨"X′", none⟩, [.nonTerminal ⟨"X′", by decide⟩]⟩] ∧
      g'.rulesOf ⟨"X", by decide⟩ =
        [⟨⟨"X", by decide⟩, .terminal ⟨"X′", none⟩, [.terminal ⟨"X′", none⟩]⟩] :=
    ⟨_, _, _, rfl, by cbv, by cbv, by cbv, by cbv, by cbv⟩
  refine ⟨g, d', read, ended, made, ?_⟩
  rintro ⟨other, reread', _, same⟩
  cases reread.symm.trans reread'
  have confused := (again.symm.trans (same _)).trans left
  simp at confused

end CommandLine

end Ebnf
