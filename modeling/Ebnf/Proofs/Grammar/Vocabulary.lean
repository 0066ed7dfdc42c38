import Ebnf.Grammar.Writer
import Ebnf.Proofs.Language.Bodies

/-! The words of documents. A symbol is written as a word, and a vocabulary knows the symbol if it
reads that word as the symbol; it is the kinds of terminals that vocabularies differ in. -/
namespace Ebnf

theorem unquote?_quoted (literal : String) : unquote? ("'" ++ literal ++ "'") = some literal := by
  simp [unquote?, String.toList_append]

theorem Name.text_inj {m n : Name} : m.text = n.text ↔ m = n := by
  cases m
  cases n
  simp

theorem Name.ofText_eq_ok {text : String} {name : Name} :
    Name.ofText text = .ok name ↔ name.text = text := by
  unfold Name.ofText Name.ofText?
  constructor
  · intro made
    split at made
    · next found =>
      split at found
      · cases found
        cases made
        rfl
      · cases found
    · cases made
  · rintro rfl
    rw [dif_pos name.valid]

/-- A word that is no bar, no sign for the empty word and not in quotes. -/
def IsBareWord (text : String) : Prop :=
  text ≠ "|" ∧ text ≠ emptyWordSign ∧ unquote? text = none

namespace Vocabulary

variable {v : Vocabulary} {text : String} {t : Terminal} {name : Name} {s : Symbol}

/-- Whether a bare word is a terminal. -/
abbrev isTerminal (v : Vocabulary) (text : String) : Bool := word.isTerminal v text

/-- What a word stands for. -/
inductive Spells (v : Vocabulary) : String → Item → Prop where
  | bar : Spells v "|" .bar
  | epsilon : Spells v emptyWordSign (.symbol .epsilon)
  | literal {text literal : String} (quoted : unquote? text = some literal) (some : literal ≠ "") :
      Spells v text (.symbol (.terminal ⟨literal, literal⟩))
  | kind {text : String} (bare : IsBareWord text) (terminal : v.isTerminal text = true) :
      Spells v text (.symbol (.terminal ⟨text, none⟩))
  | name {name : Name} (bare : IsBareWord name.text) (unlisted : v.isTerminal name.text = false) :
      Spells v name.text (.symbol (.nonTerminal name))

theorem word_bar : v.word "|" = .ok .bar := rfl

theorem word_epsilon : v.word emptyWordSign = .ok (.symbol .epsilon) := rfl

theorem word_quoted {literal : String} (quoted : unquote? text = some literal)
    (some : literal ≠ "") : v.word text = .ok (.symbol (.terminal ⟨literal, literal⟩)) := by
  have noBar : text ≠ "|" := by rintro rfl; simp [show unquote? "|" = none by decide] at quoted
  have visible : text ≠ emptyWordSign := by
    rintro rfl
    simp [show unquote? emptyWordSign = none by decide] at quoted
  rw [word, if_neg noBar, if_neg visible, quoted]
  exact if_neg some

theorem word_bare (bare : IsBareWord text) : v.word text =
    if v.isTerminal text then .ok (.symbol (.terminal ⟨text, none⟩))
    else match Name.ofText text with
      | .ok name => .ok (.symbol (.nonTerminal name))
      | .error m => .error (.misuse m) := by
  obtain ⟨noBar, visible, unquoted⟩ := bare
  refine (if_neg noBar).trans ((if_neg visible).trans ?_)
  generalize unquote? text = quoted at unquoted
  subst unquoted
  rfl

theorem word_eq_ok {i : Item} : v.word text = .ok i ↔ v.Spells text i := by
  constructor
  · intro read
    by_cases bar : text = "|"
    · subst bar
      cases read
      exact .bar
    by_cases sign : text = emptyWordSign
    · subst sign
      cases read
      exact .epsilon
    cases quoted : unquote? text with
    | some literal =>
      by_cases empty : literal = ""
      · simp [word, bar, sign, quoted, empty] at read
      · cases (word_quoted quoted empty).symm.trans read
        exact .literal quoted empty
    | none =>
      have bare : IsBareWord text := ⟨bar, sign, quoted⟩
      rw [word_bare bare] at read
      cases terminal : v.isTerminal text with
      | true =>
        rw [if_pos terminal] at read
        cases read
        exact .kind bare terminal
      | false =>
        rw [if_neg (by simp [terminal])] at read
        cases made : Name.ofText text with
        | ok name =>
          rw [made] at read
          cases read
          obtain rfl := Name.ofText_eq_ok.mp made
          exact .name bare terminal
        | error m =>
          rw [made] at read
          cases read
  · rintro (_ | _ | ⟨quoted, some⟩ | ⟨bare, terminal⟩ | ⟨bare, unlisted⟩)
    · exact word_bar
    · exact word_epsilon
    · exact word_quoted quoted some
    · rw [word_bare bare, if_pos terminal]
    · rw [word_bare bare, if_neg (by simp [unlisted]), Name.ofText_eq_ok.mpr rfl]

/-- A symbol that is read from its own text. -/
def Knows (v : Vocabulary) (s : Symbol) : Prop := v.Spells s.text (.symbol s)

theorem knows_epsilon : v.Knows .epsilon := .epsilon

theorem Spells.plain (spells : v.Spells text (.symbol s)) : s.isShorthand = false := by
  cases spells <;> rfl

/-- A literal is written in single quotes, whatever quotes it was read in. -/
theorem Spells.knows (spells : v.Spells text (.symbol s)) : v.Knows s := by
  cases spells with
  | epsilon => exact .epsilon
  | @literal _ literal quoted some =>
    have written : (Symbol.terminal ⟨literal, literal⟩).text = "'" ++ literal ++ "'" := by
      simp [Symbol.text, Terminal.text, Terminal.literalText?, Option.filter, some]
    rw [Knows, written]
    exact .literal (unquote?_quoted literal) some
  | kind bare terminal => exact .kind bare terminal
  | name bare unlisted => exact .name bare unlisted

end Vocabulary

/-! Symbols built from simple ones. -/

/-- A symbol is built from simple ones that have a property, and the branches of the alternatives in
it have another. -/
inductive Symbol.Built (P : Symbol → Prop) (Q : List Item → Prop) : Symbol → Prop where
  | simple {s : Symbol} (plain : s.isShorthand = false) (holds : P s) : Built P Q s
  | bracket {kind : Bracket} {lead : Symbol} {rest : List Symbol}
      (inside : ∀ s ∈ lead :: rest, Built P Q s) : Built P Q (.bracket kind lead rest)
  | alternative {first : List Item} {others : List (List Item)}
      (branches : ∀ items ∈ first :: others, Q items)
      (inside : ∀ items ∈ first :: others, ∀ s, .symbol s ∈ items → Built P Q s) :
      Built P Q (.alternative first others)

section Built

variable {P : Symbol → Prop} {Q : List Item → Prop} {a : Symbol} {items : List Item}
  {stretch : Sentence}

namespace Item

theorem mem_of_mem_branch (member : .symbol a ∈ branch items) :
    a = .epsilon ∨ .symbol a ∈ items := by
  cases items with
  | nil => exact .inl (by simpa [branch] using member)
  | cons => exact .inr member

/-- What stands between bars stood there before. -/
theorem mem_of_mem_stretches (found : stretch = (stretches items).1 ∨ stretch ∈ (stretches items).2)
    (member : a ∈ stretch) : .symbol a ∈ items := by
  induction items generalizing stretch with
  | nil =>
    rcases found with rfl | found
    · cases member
    · cases found
  | cons item items ih =>
    cases item with
    | bar =>
      rcases found with rfl | found
      · cases member
      · exact List.mem_cons_of_mem _ (ih (List.mem_cons.mp found) member)
    | symbol b =>
      rcases found with rfl | found
      · rcases List.mem_cons.mp member with rfl | later
        · exact List.mem_cons_self
        · exact List.mem_cons_of_mem _ (ih (.inl rfl) later)
      · exact List.mem_cons_of_mem _ (ih (.inr found) member)

end Item

theorem Symbol.Built.mono {P P' : Symbol → Prop} {Q : List Item → Prop} {s : Symbol}
    (built : s.Built P Q) (weaker : ∀ a, P a → P' a) : s.Built P' Q := by
  induction built with
  | simple plain holds => exact .simple plain (weaker _ holds)
  | bracket _ ih => exact .bracket ih
  | alternative branches _ ih => exact .alternative branches ih

/-- All symbols in the bodies of a grammar are built so. -/
def Grammar.Built (P : Symbol → Prop) (Q : List Item → Prop) (g : Grammar) : Prop :=
  ∀ rule ∈ g.rules, ∀ a ∈ rule.body, a.Built P Q

/-- Branches that are folded from a sequence at its bars have a property. -/
def Item.Folded (Q : List Item → Prop) : Prop := ∀ s : Sentence, Q (branch (ofSymbols s))

theorem Symbol.built_of_mem_branch (epsilon : P .epsilon)
    (inside : ∀ s, .symbol s ∈ items → s.Built P Q) (member : .symbol a ∈ Item.branch items) :
    a.Built P Q := by
  rcases Item.mem_of_mem_branch member with rfl | listed
  · exact .simple rfl epsilon
  · exact inside a listed

/-- Folding items at their bars makes an alternative of them. -/
theorem Sentence.built_of_mem_ofItems (epsilon : P .epsilon) (folded : Item.Folded Q)
    (inside : ∀ s, .symbol s ∈ items → s.Built P Q) (member : a ∈ ofItems items) :
    a.Built P Q := by
  rcases parts : Item.stretches items with ⟨first, others⟩
  have listed {s : Sentence} (found : s = first ∨ s ∈ others) {b : Symbol} (within : b ∈ s) :
      b.Built P Q :=
    inside b (Item.mem_of_mem_stretches (by simpa [parts] using found) within)
  cases others with
  | nil => exact listed (.inl rfl) (by simpa [ofItems, parts] using member)
  | cons second others =>
    obtain rfl : a = .alternative (Item.branch (Item.ofSymbols first))
        ((second :: others).map fun s => Item.branch (Item.ofSymbols s)) := by
      simpa [ofItems, parts] using member
    have branch {items : List Item} (occurs : items ∈ Item.branch (Item.ofSymbols first) ::
        (second :: others).map fun s => Item.branch (Item.ofSymbols s)) :
        ∃ s, (s = first ∨ s ∈ second :: others) ∧ Item.branch (Item.ofSymbols s) = items := by
      rcases List.mem_cons.mp occurs with rfl | later
      · exact ⟨first, .inl rfl, rfl⟩
      · obtain ⟨s, found, same⟩ := List.mem_map.mp later
        exact ⟨s, .inr found, same⟩
    refine .alternative (fun items occurs => ?_) fun items occurs s within => ?_
    · obtain ⟨s, _, rfl⟩ := branch occurs
      exact folded s
    · obtain ⟨t, found, rfl⟩ := branch occurs
      exact Symbol.built_of_mem_branch epsilon
        (fun b known => listed found (Item.mem_ofSymbols.mp known)) within

end Built

/-! The kinds and the names in a symbol. -/

section Occurrences

variable {kind : String} {name : Name} {s : Symbol} {items : List Item}
  {branches : List (List Item)}

namespace Item

theorem mem_terminalKindsIn : kind ∈ terminalKindsIn items ↔
    ∃ a, .symbol a ∈ items ∧ kind ∈ a.terminalKinds := by
  induction items with
  | nil => simp [terminalKindsIn]
  | cons item items ih =>
    cases item with
    | bar => simp [terminalKindsIn, ih]
    | symbol a => simp [terminalKindsIn, ih, or_and_right, exists_or]

theorem mem_terminalKindsInAll : kind ∈ terminalKindsInAll branches ↔
    ∃ items ∈ branches, kind ∈ terminalKindsIn items := by
  induction branches with
  | nil => simp [terminalKindsInAll]
  | cons items branches ih => simp [terminalKindsInAll, ih]

end Item

namespace Symbol

theorem mem_terminalKindsIn {t : Sentence} :
    kind ∈ terminalKindsIn t ↔ ∃ a ∈ t, kind ∈ a.terminalKinds := by
  induction t with
  | nil => simp [terminalKindsIn]
  | cons a t ih => simp [terminalKindsIn, ih]

theorem mem_terminalKinds_bracket {bracket : Bracket} {lead : Symbol} {rest : List Symbol} :
    kind ∈ (Symbol.bracket bracket lead rest).terminalKinds ↔
      ∃ a ∈ lead :: rest, kind ∈ a.terminalKinds := by
  rw [← mem_terminalKindsIn]
  rfl

theorem mem_terminalKinds_alternative {first : List Item} {others : List (List Item)} :
    kind ∈ (alternative first others).terminalKinds ↔
      ∃ items ∈ first :: others, ∃ a, .symbol a ∈ items ∧ kind ∈ a.terminalKinds := by
  simp only [← Item.mem_terminalKindsIn, ← Item.mem_terminalKindsInAll]
  rfl

theorem mem_names_bracket {bracket : Bracket} {lead : Symbol} {rest : List Symbol} :
    name ∈ (Symbol.bracket bracket lead rest).names ↔ ∃ a ∈ lead :: rest, name ∈ a.names := by
  rw [← mem_namesIn_iff]
  rfl

theorem mem_names_alternative {first : List Item} {others : List (List Item)} :
    name ∈ (alternative first others).names ↔
      ∃ items ∈ first :: others, ∃ a, .symbol a ∈ items ∧ name ∈ a.names := by
  simp only [← Item.mem_namesIn_iff, ← Item.mem_namesInAll_iff]
  rfl

theorem mem_terminalKinds_terminal {t : Terminal} :
    kind ∈ (terminal t).terminalKinds ↔ t.literalText? = none ∧ kind = t.token := by
  cases literal : t.literalText? <;> simp [terminalKinds, literal]

namespace Built

variable {P : Symbol → Prop} {Q : List Item → Prop}

/-- The names in a symbol are non-terminals that it is built from. -/
theorem of_mem_names (built : s.Built P Q) (occurs : name ∈ s.names) : P (.nonTerminal name) := by
  induction built with
  | @simple s plain holds =>
    cases s with
    | nonTerminal other => exact mem_names_nonTerminal.mp occurs ▸ holds
    | terminal | epsilon => cases occurs
    | bracket | alternative => cases plain
  | bracket _ ih =>
    obtain ⟨a, inside, within⟩ := mem_names_bracket.mp occurs
    exact ih a inside within
  | alternative _ _ ih =>
    obtain ⟨items, listed, a, inside, within⟩ := mem_names_alternative.mp occurs
    exact ih items listed a inside within

/-- The kinds in a symbol are those of terminals that it is built from. -/
theorem of_mem_terminalKinds (built : s.Built P Q) (occurs : kind ∈ s.terminalKinds) :
    ∃ t : Terminal, t.literalText? = none ∧ t.token = kind ∧ P (.terminal t) := by
  induction built with
  | @simple s plain holds =>
    cases s with
    | terminal t =>
      obtain ⟨none, rfl⟩ := mem_terminalKinds_terminal.mp occurs
      exact ⟨t, none, rfl, holds⟩
    | nonTerminal | epsilon => cases occurs
    | bracket | alternative => cases plain
  | bracket _ ih =>
    obtain ⟨a, inside, within⟩ := mem_terminalKinds_bracket.mp occurs
    exact ih a inside within
  | alternative _ _ ih =>
    obtain ⟨items, listed, a, inside, within⟩ := mem_terminalKinds_alternative.mp occurs
    exact ih items listed a inside within

end Built

end Symbol

end Occurrences

namespace Vocabulary

variable {v v' : Vocabulary} {Q : List Item → Prop} {s : Symbol} {t : Terminal} {name : Name}

theorem knows_terminal : v.Knows (.terminal t) ↔
    (t.token ≠ "" ∧ t.literal = some t.token) ∨
      t.literal = none ∧ IsBareWord t.token ∧ v.isTerminal t.token = true := by
  constructor
  · intro known
    unfold Knows at known
    generalize (Symbol.terminal t).text = text at known
    cases known with
    | literal _ some => exact .inl ⟨some, rfl⟩
    | kind bare terminal => exact .inr ⟨rfl, bare, terminal⟩
  · obtain ⟨token, literal⟩ := t
    rintro (⟨some, same⟩ | ⟨same, bare, terminal⟩)
    · obtain rfl : literal = token := same
      exact Spells.knows (.literal (unquote?_quoted token) some)
    · obtain rfl : literal = none := same
      exact .kind bare terminal

theorem knows_nonTerminal : v.Knows (.nonTerminal name) ↔
    IsBareWord name.text ∧ v.isTerminal name.text = false := by
  constructor
  · intro known
    unfold Knows at known
    generalize (Symbol.nonTerminal name).text = text at known
    cases known with
    | name bare unlisted => exact ⟨bare, unlisted⟩
  · exact fun ⟨bare, unlisted⟩ => .name bare unlisted

/-- A terminal that is written as its kind is known by it. -/
theorem isTerminal_of_knows (known : v.Knows (.terminal t)) (none : t.literalText? = none) :
    v.isTerminal t.token = true := by
  rcases knows_terminal.mp known with ⟨some, literal⟩ | ⟨_, _, terminal⟩
  · simp [Terminal.literalText?, literal, Option.filter, some] at none
  · exact terminal

/-- A vocabulary that has the kinds in a symbol and none of its names reads the symbol as well. -/
theorem built_of_kinds (built : s.Built v.Knows Q)
    (kinds : ∀ kind ∈ s.terminalKinds, v'.isTerminal kind = true)
    (names : ∀ name ∈ s.names, v'.isTerminal name.text = false) : s.Built v'.Knows Q := by
  induction built with
  | @simple s plain known =>
    refine .simple plain ?_
    cases s with
    | terminal t =>
      refine knows_terminal.mpr ((knows_terminal.mp known).imp_right ?_)
      rintro ⟨none, bare, _⟩
      exact ⟨none, bare, kinds t.token <| Symbol.mem_terminalKinds_terminal.mpr
        ⟨by simp [Terminal.literalText?, none], rfl⟩⟩
    | nonTerminal name =>
      exact knows_nonTerminal.mpr ⟨(knows_nonTerminal.mp known).1,
        names name (Symbol.mem_names_nonTerminal.mpr rfl)⟩
    | epsilon => exact knows_epsilon
    | bracket | alternative => cases plain
  | bracket _ ih =>
    refine .bracket fun a inside => ih a inside (fun kind within => kinds kind ?_)
      fun name within => names name ?_
    · exact Symbol.mem_terminalKinds_bracket.mpr ⟨a, inside, within⟩
    · exact Symbol.mem_names_bracket.mpr ⟨a, inside, within⟩
  | alternative branches _ ih =>
    refine .alternative branches fun items listed a inside => ih items listed a inside
      (fun kind within => kinds kind ?_) fun name within => names name ?_
    · exact Symbol.mem_terminalKinds_alternative.mpr ⟨items, listed, a, inside, within⟩
    · exact Symbol.mem_names_alternative.mpr ⟨items, listed, a, inside, within⟩

end Vocabulary

end Ebnf
