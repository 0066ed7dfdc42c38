import Ebnf.Proofs.Analysis.Reachability
import Ebnf.Proofs.Grammar.Reading

/-! A grammar that was read can be written, and what is written is read as the same grammar with the
rules of each head put together. The writer lists all kinds of terminals, so the reader tells them
from names by that list, whatever told them apart before. -/
namespace Ebnf

/-! Symbols. -/

namespace Item

variable {items : List Item} {branches : List (List Item)}

/-- Branches that there is a form for. -/
def Writable (items : List Item) : Prop := items ≠ [] ∧ .bar ∉ items

theorem folded_writable : Folded Writable := by
  intro s
  cases s with
  | nil => exact ⟨List.cons_ne_nil _ _, by simp [branch, ofSymbols]⟩
  | cons a s => exact ⟨List.cons_ne_nil _ _, bar_notMem_ofSymbols (a :: s)⟩

theorem documents_ofSymbols (s : Sentence) : documents (ofSymbols s) = Symbol.documents s := by
  induction s with
  | nil => rfl
  | cons a s ih =>
    have next : documents (List.map Item.symbol s) = Symbol.documents s := ih
    simp [ofSymbols, documents, Symbol.documents, next]

theorem branch_eq_self (some : items ≠ []) : branch items = items := by
  cases items with
  | nil => exact absurd rfl some
  | cons => rfl

theorem map_branch_eq_self (some : ∀ items ∈ branches, items ≠ []) :
    branches.map branch = branches := by
  have same : ∀ items ∈ branches, branch items = items := fun items listed =>
    branch_eq_self (some items listed)
  exact (List.map_congr_left same).trans (List.map_id _)

end Item

namespace Vocabulary

variable {v : Vocabulary} {a : Symbol} {s : Sentence}

/-- A symbol is written in a form that is read as the symbol. -/
def ReadsBack (v : Vocabulary) (a : Symbol) : Prop :=
  ∃ d, a.document = .ok d ∧ v.item d = .ok (.symbol a)

theorem readsBack_sentence (back : ∀ a ∈ s, v.ReadsBack a) :
    ∃ ds, Symbol.documents s = .ok ds ∧ v.items ds = .ok (Item.ofSymbols s) := by
  induction s with
  | nil => exact ⟨[], rfl, rfl⟩
  | cons a s ih =>
    obtain ⟨d, written, read⟩ := back a List.mem_cons_self
    obtain ⟨ds, rest, later⟩ := ih fun b listed => back b (List.mem_cons_of_mem _ listed)
    refine ⟨d :: ds, ?_, ?_⟩
    · simp [Symbol.documents, written, rest, bind, Except.bind, pure, Except.pure]
    · simp [items, read, later, bind, Except.bind, pure, Except.pure, Item.ofSymbols]

theorem readsBack_branches {branches : List (List Item)}
    (writable : ∀ items ∈ branches, Item.Writable items)
    (back : ∀ items ∈ branches, ∀ a, .symbol a ∈ items → v.ReadsBack a) :
    ∃ ds, Item.branchDocuments branches = .ok ds ∧ v.bodies ds = .ok branches := by
  induction branches with
  | nil => exact ⟨[], rfl, rfl⟩
  | cons items branches ih =>
    obtain ⟨s, rfl⟩ := Item.exists_symbols (writable items List.mem_cons_self).2
    obtain ⟨ds, written, read⟩ := readsBack_sentence fun a listed =>
      back _ List.mem_cons_self a (Item.mem_ofSymbols.mpr listed)
    obtain ⟨rest, later, last⟩ :=
      ih (fun items listed => writable items (List.mem_cons_of_mem _ listed))
        fun items listed => back items (List.mem_cons_of_mem _ listed)
    refine ⟨.list ds :: rest, ?_, ?_⟩
    · simp [Item.branchDocuments, Item.documents_ofSymbols, written, later, bind, Except.bind, pure,
        Except.pure]
    · simp [bodies, body, read, last, bind, Except.bind, pure, Except.pure]

theorem item_bracket (kind : Bracket) (ds : List Document) :
    v.item (.table [(.text kind.key, .list ds)]) = do
      let items ← v.items ds
      return .symbol (← (Symbol.enclose kind items).mapError .misuse) := by
  have other : kind.key ≠ alternativeKey := by cases kind <;> decide
  have found : Bracket.ofKey? (.text kind.key) = some kind := by cases kind <;> decide
  rw [item, shorthand, if_neg (by simpa using other), found]
  simp [body]

theorem item_alternative (d : Document) (ds : List Document) :
    v.item (.table [(.text alternativeKey, .list (d :: ds))]) = do
      let branches ← v.bodies (d :: ds)
      return .symbol (← (Symbol.choose branches).mapError .misuse) := by
  rw [item, shorthand, if_pos rfl, alternatives]
  simp

theorem readsBack_of_built (built : a.Built v.Knows Item.Writable) : v.ReadsBack a := by
  induction built with
  | @simple s plain known =>
    refine ⟨.text s.text, ?_, ?_⟩
    · cases s with
      | terminal | nonTerminal | epsilon => rfl
      | bracket | alternative => cases plain
    · rw [item]
      exact word_eq_ok.mpr known
  | @bracket kind lead rest _ ih =>
    obtain ⟨ds, written, read⟩ := readsBack_sentence ih
    rw [Symbol.documents, bind_eq_ok] at written
    obtain ⟨d, first, written⟩ := written
    obtain ⟨ds, later, same⟩ := bind_eq_ok.mp written
    cases same
    refine ⟨.table [(.text kind.key, .list (d :: ds))], ?_, ?_⟩
    · simp [Symbol.document, first, later, bind, Except.bind, pure, Except.pure]
    · have enclosed : Symbol.enclose kind (Item.ofSymbols (lead :: rest)) =
          .ok (.bracket kind lead rest) :=
        Symbol.enclose_eq_ok.mpr ⟨lead, rest, Sentence.ofItems_ofSymbols _, rfl⟩
      simp [item_bracket, read, enclosed, mapError_ok, bind, Except.bind, pure, Except.pure]
  | @alternative first others writable _ ih =>
    obtain ⟨ds, written, read⟩ := readsBack_branches writable ih
    rw [Item.branchDocuments, bind_eq_ok] at written
    obtain ⟨d, branch, written⟩ := written
    obtain ⟨ds, later, same⟩ := bind_eq_ok.mp written
    cases same
    refine ⟨.table [(.text alternativeKey, .list (.list d :: ds))], ?_, ?_⟩
    · simp [Symbol.document, branch, later, bind, Except.bind, pure, Except.pure]
    · have filled : (first :: others).map Item.branch = first :: others :=
        Item.map_branch_eq_self fun items listed => (writable items listed).1
      have chosen : Symbol.choose (first :: others) = .ok (.alternative first others) := by
        obtain ⟨same, sames⟩ := List.cons.inj filled
        rw [Symbol.choose, same, sames]
      simp [item_alternative, read, chosen, mapError_ok, bind, Except.bind, pure, Except.pure]

/-! Rules. -/

/-- A rule is written in a form that is read as a second rule. -/
def Rewrites (v : Vocabulary) (rule reread : Rule) : Prop :=
  ∃ ds, Symbol.documents rule.body = .ok ds ∧ v.rule (.text rule.head.text) (.list ds) = .ok reread

variable {rule reread : Rule}

theorem rule_list_eq_ok {name : Name} {ds : List Document} :
    v.rule (.text name.text) (.list ds) = .ok reread ↔
      ∃ items, v.items ds = .ok items ∧ .ofItems name items = reread := by
  rw [rule_eq_ok]
  constructor
  · rintro ⟨other, same, items, read, rfl⟩
    obtain rfl : other = name := by
      have same : other.text = name.text := same
      rwa [Name.text_inj] at same
    exact ⟨items, read, rfl⟩
  · rintro ⟨items, read, rfl⟩
    exact ⟨name, rfl, items, read, rfl⟩

theorem Rewrites.head_eq (rewrites : v.Rewrites rule reread) : reread.head = rule.head := by
  obtain ⟨ds, _, read⟩ := rewrites
  obtain ⟨items, _, rfl⟩ := rule_list_eq_ok.mp read
  exact Rule.head_ofBody _ _

theorem rewrites_self (back : ∀ a ∈ rule.body, v.ReadsBack a) : v.Rewrites rule rule := by
  obtain ⟨ds, written, read⟩ := readsBack_sentence back
  refine ⟨ds, written, rule_list_eq_ok.mpr ⟨_, read, ?_⟩⟩
  rw [Rule.ofItems, Sentence.ofItems_ofSymbols]
  rfl

end Vocabulary

/-! Grammars. -/

namespace Grammar

variable {g g' : Grammar} {d : Document} {name : Name}

/-- The words that a reader of the written grammar knows. -/
def vocabulary (g : Grammar) : Vocabulary := ⟨g.heads.map Name.text, some g.terminalKinds⟩

/-- The document of a grammar, given the entries for its heads. -/
def written (g : Grammar) (entries : List (Key × Document)) : Document :=
  .table ((g.start.toList.map fun name => (Key.text "start", Document.text name.text)) ++
    [(.text "terminals", .list (g.terminalKinds.map .text)), (.text "productions", .table entries)])

theorem toDocument_eq_ok : g.toDocument = .ok d ↔ ∃ entries,
    List.Forall₂ (fun head entry => entryOf (head, g.rulesOf head) = .ok entry) g.heads entries ∧
      g.written entries = d := by
  simp only [toDocument, bind_eq_ok, mapM_eq_ok, groups, List.forall₂_map_left_iff, pure,
    Except.pure, Except.ok.injEq, written]

theorem entryOf_eq_ok {rules : List Rule} {entry : Key × Document} :
    entryOf (name, rules) = .ok entry ↔ ∃ bodies,
      List.Forall₂ (fun rule ds => Symbol.documents rule.body = .ok ds) rules bodies ∧
        (.text name.text, .list (bodies.map .list)) = entry := by
  simp only [entryOf, bind_eq_ok, mapM_eq_ok, pure, Except.pure, Except.ok.injEq]

theorem exists_toDocument
    (writable : ∀ rule ∈ g.rules, ∃ ds, Symbol.documents rule.body = .ok ds) :
    ∃ d, g.toDocument = .ok d := by
  have entries : ∀ head ∈ g.heads, ∃ entry, entryOf (head, g.rulesOf head) = .ok entry := by
    intro head _
    obtain ⟨bodies, each⟩ := forall₂_of_forall fun rule listed =>
      writable rule (mem_rulesOf.mp listed).1
    exact ⟨_, entryOf_eq_ok.mpr ⟨bodies, each, rfl⟩⟩
  obtain ⟨entries, made⟩ := forall₂_of_forall entries
  exact ⟨_, toDocument_eq_ok.mpr ⟨entries, made, rfl⟩⟩

/-! What the reader finds in the document of a grammar. -/

theorem get?_written {entries : List (Key × Document)} (key : String)
    (other : key ≠ "start") : (g.written entries).entries?.bind (Document.get? · key) =
      Document.get? [(.text "terminals", .list (g.terminalKinds.map .text)),
        (.text "productions", .table entries)] key := by
  obtain ⟨rules, start⟩ := g
  cases start with
  | none => rfl
  | some name =>
    have skipped : Key.text "start" ≠ .text key := by simpa using other.symm
    simp [written, Document.entries?, Document.get?, skipped]

theorem ruleTable_written {entries : List (Key × Document)} :
    (g.written entries).ruleTable = .ok entries := by
  rw [Document.ruleTable, get?_written "productions" (by decide)]
  rfl

theorem terminalList?_written {entries : List (Key × Document)} :
    (g.written entries).terminalList? = .ok (some g.terminalKinds) := by
  have texts (kinds : List String) :
      (kinds.map Document.text).mapM Document.text? = some kinds := by
    induction kinds with
    | nil => rfl
    | cons kind kinds ih => simp [List.mapM_cons, ih, Document.text?]
  rw [Document.terminalList?, Document.optional?, get?_written "terminals" (by decide)]
  simp [Document.get?, texts]

theorem startText?_written {entries : List (Key × Document)} :
    (g.written entries).startText? = .ok (g.start.map Name.text) := by
  obtain ⟨rules, start⟩ := g
  cases start with
  | none => rfl
  | some name =>
    simp [Document.startText?, Document.optional?, written, Document.entries?, Document.get?]

theorem ofDocument_written {entries : List (Key × Document)}
    (keys : entries.map (·.1.shown) = g.heads.map Name.text) :
    ofDocument (g.written entries) = .ok g' ↔ ∃ lists,
      List.Forall₂ (fun entry rules => g.vocabulary.rules entry = .ok rules) entries lists ∧
      ofRules lists.flatten g.start = g' ∧
      (g'.rules ≠ [] → ∃ first, g'.requireStart = .ok first) := by
  have named : (g.start.map Name.text).mapM Name.ofText = .ok g.start := by
    cases g.start with
    | none => rfl
    | some name =>
      rw [Option.map_some, Option.mapM_some, Name.ofText_eq_ok.mpr rfl]
      rfl
  rw [ofDocument_eq_ok]
  constructor
  · rintro ⟨_, _, _, _, lists, table, listed, text, named', read, rest⟩
    cases table.symm.trans ruleTable_written
    cases listed.symm.trans terminalList?_written
    cases text.symm.trans startText?_written
    cases named'.symm.trans named
    rw [keys] at read
    exact ⟨lists, read, rest⟩
  · rintro ⟨lists, read, rest⟩
    refine ⟨entries, _, _, _, lists, ruleTable_written, terminalList?_written, startText?_written,
      named, ?_, rest⟩
    rw [keys]
    exact read

theorem rules_entry {v : Vocabulary} {bodies : List (List Document)} {rules : List Rule} :
    v.rules (.text name.text, .list (bodies.map .list)) = .ok rules ↔
      List.Forall₂ (fun ds rule => v.rule (.text name.text) (.list ds) = .ok rule) bodies
        rules := by
  rw [Vocabulary.rules, mapM_eq_ok, List.forall₂_map_left_iff]

/-- The entry for a head is read as the rules that its rules are rewritten as. -/
theorem rules_entryOf {v : Vocabulary} {rules rereads : List Rule} {entry : Key × Document}
    (same : ∀ rule ∈ rules, rule.head = name) (made : entryOf (name, rules) = .ok entry) :
    v.rules entry = .ok rereads ↔ List.Forall₂ v.Rewrites rules rereads := by
  obtain ⟨bodies, each, rfl⟩ := entryOf_eq_ok.mp made
  rw [rules_entry, forall₂_results each]
  refine forall₂_iff_of_iff fun rule listed reread => ?_
  rw [Vocabulary.Rewrites, same rule listed]

/-- A grammar whose start symbol heads a rule, unless there are no rules. -/
def Startable (g : Grammar) : Prop := g.rules ≠ [] → ∃ first, g.requireStart = .ok first

theorem entries_keys {entries : List (Key × Document)}
    (made : List.Forall₂ (fun head entry => entryOf (head, g.rulesOf head) = .ok entry)
      g.heads entries) : entries.map (·.1.shown) = g.heads.map Name.text := by
  generalize g.heads = heads at made
  induction made with
  | nil => rfl
  | cons first _ ih =>
    obtain ⟨_, _, rfl⟩ := entryOf_eq_ok.mp first
    rw [List.map_cons, List.map_cons, ih]
    rfl

theorem mem_regrouped {rule : Rule} : rule ∈ g.regrouped.rules ↔ rule ∈ g.rules := by
  simp only [regrouped, List.mem_flatMap, mem_rulesOf]
  constructor
  · rintro ⟨_, _, member, _⟩
    exact member
  · exact fun member => ⟨_, head_mem_heads member, member, rfl⟩

theorem ofRules_eq {rules : List Rule} {start : Option Name}
    (chosen : rules ≠ [] → start.isSome) : ofRules rules start = ⟨rules, start⟩ := by
  cases start with
  | some name => rfl
  | none =>
    cases rules with
    | nil => rfl
    | cons => simp at chosen

theorem heads_of_rewrites {v : Vocabulary} {rules rereads : List Rule}
    (rewrites : List.Forall₂ v.Rewrites rules rereads) :
    rereads.map Rule.head = rules.map Rule.head := by
  induction rewrites with
  | nil => rfl
  | cons first _ ih => rw [List.map_cons, List.map_cons, first.head_eq, ih]

/-- Rules that those of a grammar are rewritten as have the same heads, so the start symbol is one
of them. -/
theorem Startable.rewritten {v : Vocabulary} {rules : List Rule} (startable : g.Startable)
    (rewrites : List.Forall₂ v.Rewrites g.regrouped.rules rules) : Startable ⟨rules, g.start⟩ := by
  intro some
  have heads := heads_of_rewrites rewrites
  have rulesSome : g.rules ≠ [] := by
    intro empty
    have none : g.regrouped.rules = [] :=
      List.eq_nil_iff_forall_not_mem.mpr fun rule member => by
        simpa [empty] using mem_regrouped.mp member
    rw [none, List.map_nil] at heads
    exact some (List.map_eq_nil_iff.mp heads)
  obtain ⟨first, started⟩ := startable rulesSome
  obtain ⟨chosen, headed⟩ := requireStart_eq_ok.mp started
  refine ⟨first, requireStart_eq_ok.mpr ⟨chosen, fun _ => ?_⟩⟩
  obtain ⟨rule, member, same⟩ := mem_heads.mp (headed rulesSome)
  have listed : first ∈ rules.map Rule.head := by
    rw [heads]
    exact List.mem_map.mpr ⟨rule, mem_regrouped.mpr member, same⟩
  obtain ⟨reread, member, same⟩ := List.mem_map.mp listed
  exact mem_heads.mpr ⟨reread, member, same⟩

/-- What is read of a written grammar is the lists that the rules of its heads are rewritten as. -/
theorem reread_eq_ok (startable : g.Startable) (made : g.toDocument = .ok d) :
    ofDocument d = .ok g' ↔ ∃ lists,
      List.Forall₂ (fun head rules => List.Forall₂ g.vocabulary.Rewrites (g.rulesOf head) rules)
        g.heads lists ∧ ⟨lists.flatten, g.start⟩ = g' := by
  obtain ⟨entries, each, rfl⟩ := toDocument_eq_ok.mp made
  rw [ofDocument_written (entries_keys each)]
  refine exists_congr fun lists => ?_
  have rewritten : List.Forall₂ (fun entry rules => g.vocabulary.rules entry = .ok rules)
      entries lists ↔ List.Forall₂ (fun head rules =>
        List.Forall₂ g.vocabulary.Rewrites (g.rulesOf head) rules) g.heads lists := by
    rw [forall₂_results each]
    refine forall₂_iff_of_iff fun head headed rules => ?_
    obtain ⟨entry, _, made⟩ := exists_of_forall₂_left each headed
    rw [← rules_entryOf (fun rule listed => (mem_rulesOf.mp listed).2) made]
    exact ⟨fun ⟨_, again, read⟩ => by cases again.symm.trans made; exact read,
      fun read => ⟨entry, made, read⟩⟩
  rw [rewritten]
  refine and_congr_right fun related => ?_
  have rewrites : List.Forall₂ g.vocabulary.Rewrites g.regrouped.rules lists.flatten :=
    List.rel_flatten (List.forall₂_map_left_iff.mpr related)
  have started := startable.rewritten rewrites
  have same : ofRules lists.flatten g.start = ⟨lists.flatten, g.start⟩ := by
    refine ofRules_eq fun some => ?_
    obtain ⟨first, started⟩ := started some
    rw [(requireStart_eq_ok.mp started).1]
    rfl
  rw [same]
  constructor
  · exact And.left
  · rintro rfl
    exact ⟨rfl, started⟩

/-! The rules of one head among lists of rules of several heads. -/

theorem rulesOf_flatten_of_notMem {P : Name → List Rule → Prop} {heads : List Name}
    {lists : List (List Rule)} {start : Option Name} (related : List.Forall₂ P heads lists)
    (headed : ∀ head rules, P head rules → ∀ rule ∈ rules, rule.head = head)
    (other : name ∉ heads) : rulesOf ⟨lists.flatten, start⟩ name = [] := by
  rw [List.eq_nil_iff_forall_not_mem]
  intro rule member
  obtain ⟨listed, rfl⟩ := mem_rulesOf.mp member
  obtain ⟨rules, known, member⟩ := List.mem_flatten.mp listed
  obtain ⟨head, occurs, holds⟩ := exists_of_forall₂ related known
  exact other (headed head rules holds rule member ▸ occurs)

theorem rulesOf_flatten {P : Name → List Rule → Prop} {heads : List Name}
    {lists : List (List Rule)} {start : Option Name} (related : List.Forall₂ P heads lists)
    (headed : ∀ head rules, P head rules → ∀ rule ∈ rules, rule.head = head)
    (apart : heads.Nodup) (occurs : name ∈ heads) :
    P name (rulesOf ⟨lists.flatten, start⟩ name) := by
  induction related with
  | nil => cases occurs
  | @cons head rules heads lists first rest ih =>
    obtain ⟨new, apart⟩ := List.nodup_cons.mp apart
    have parts : rulesOf ⟨(rules :: lists).flatten, start⟩ name =
        rules.filter (·.head = name) ++ rulesOf ⟨lists.flatten, start⟩ name := by
      simp [rulesOf]
    rw [parts]
    rcases List.mem_cons.mp occurs with rfl | later
    · rw [rulesOf_flatten_of_notMem rest headed new, List.append_nil, List.filter_eq_self.mpr]
      · exact first
      · intro rule member
        simpa using headed name rules first rule member
    · have none : rules.filter (·.head = name) = [] := by
        rw [List.filter_eq_nil_iff]
        intro rule member same
        have same : rule.head = name := by simpa using same
        exact new (headed head rules first rule member ▸ same ▸ later)
      rw [none, List.nil_append]
      exact ih apart later

theorem rulesOf_regrouped : g.regrouped.rulesOf name = g.rulesOf name := by
  have related : List.Forall₂ (fun head rules => g.rulesOf head = rules) g.heads
      (g.heads.map g.rulesOf) := by
    simp [List.forall₂_map_right_iff, List.forall₂_same]
  have headed : ∀ head rules, g.rulesOf head = rules → ∀ rule ∈ rules, rule.head = head := by
    rintro head _ rfl rule member
    exact (mem_rulesOf.mp member).2
  by_cases occurs : name ∈ g.heads
  · exact (rulesOf_flatten related headed nodup_heads occurs).symm
  · have none : g.rulesOf name = [] := by
      by_contra some
      exact occurs (rulesOf_ne_nil.mp some)
    rw [none]
    exact rulesOf_flatten_of_notMem related headed occurs

/-- If all rules are rewritten as themselves, the grammar that is read is the one that was written,
with the rules of each head put together. -/
theorem ofDocument_toDocument (startable : g.Startable) (made : g.toDocument = .ok d)
    (rewrites : ∀ rule ∈ g.rules, g.vocabulary.Rewrites rule rule) :
    ofDocument d = .ok g.regrouped := by
  refine (reread_eq_ok startable made).mpr ⟨g.heads.map g.rulesOf, ?_, rfl⟩
  rw [List.forall₂_map_right_iff, List.forall₂_same]
  intro head _
  rw [List.forall₂_same]
  exact fun rule member => rewrites rule (mem_rulesOf.mp member).1

/-- If the rules of every name are read as they were written, all rules are rewritten as
themselves. -/
theorem rewrites_of_reread (startable : g.Startable) (made : g.toDocument = .ok d)
    (read : ofDocument d = .ok g') (same : ∀ name, g'.rulesOf name = g.rulesOf name) :
    ∀ rule ∈ g.rules, g.vocabulary.Rewrites rule rule := by
  obtain ⟨lists, related, rfl⟩ := (reread_eq_ok startable made).mp read
  intro rule member
  have headed : ∀ head rules, List.Forall₂ g.vocabulary.Rewrites (g.rulesOf head) rules →
      ∀ rule ∈ rules, rule.head = head := by
    intro head rules rewrites reread listed
    obtain ⟨rule, known, rewritten⟩ := exists_of_forall₂ rewrites listed
    exact rewritten.head_eq.trans (mem_rulesOf.mp known).2
  have rewrites : List.Forall₂ g.vocabulary.Rewrites (g.rulesOf rule.head)
      (rulesOf ⟨lists.flatten, g.start⟩ rule.head) :=
    rulesOf_flatten related headed nodup_heads (head_mem_heads member)
  rw [same, List.forall₂_same] at rewrites
  exact rewrites rule (mem_rulesOf.mpr ⟨member, rfl⟩)

end Grammar

/-! Grammars that were read. -/

namespace Grammar

variable {g : Grammar} {d : Document}

theorem startable_of_ofDocument (read : ofDocument d = .ok g) : g.Startable := by
  obtain ⟨_, _, _, _, _, _, _, _, _, _, _, startable⟩ := ofDocument_eq_ok.mp read
  exact startable

theorem mem_terminalKinds {kind : String} : kind ∈ g.terminalKinds ↔
    ∃ rule ∈ g.rules, ∃ a ∈ rule.body, kind ∈ a.terminalKinds := by
  simp only [terminalKinds, List.mem_eraseDups, List.mem_flatMap, Symbol.mem_terminalKindsIn]

theorem isTerminal_vocabulary {word : String} :
    g.vocabulary.isTerminal word = true ↔ word ∈ g.terminalKinds := by
  simp [Vocabulary.isTerminal, Vocabulary.word.isTerminal, vocabulary]

/-- Kinds of terminals that a vocabulary knows are not among the names that it knows. -/
theorem notMem_terminalKinds {v : Vocabulary} {P : Symbol → Prop} {Q : List Item → Prop}
    {name : Name} (built : g.Built P Q)
    (terminals : ∀ t, P (.terminal t) → v.Knows (.terminal t))
    (known : v.Knows (.nonTerminal name)) : name.text ∉ g.terminalKinds := by
  intro listed
  obtain ⟨rule, member, a, inside, within⟩ := mem_terminalKinds.mp listed
  obtain ⟨t, none, same, holds⟩ := (built rule member a inside).of_mem_terminalKinds within
  have terminal := Vocabulary.isTerminal_of_knows (terminals t holds) none
  rw [same, (Vocabulary.knows_nonTerminal.mp known).2] at terminal
  cases terminal

/-- The words that a reader of the written grammar knows are enough for a grammar that was read. -/
theorem built_vocabulary {v : Vocabulary} {Q : List Item → Prop} (built : g.Built v.Knows Q) :
    g.Built g.vocabulary.Knows Q := by
  intro rule member a inside
  refine Vocabulary.built_of_kinds (built rule member a inside) (fun kind within => ?_)
    fun name within => ?_
  · exact isTerminal_vocabulary.mpr (mem_terminalKinds.mpr ⟨rule, member, a, inside, within⟩)
  · rw [Bool.eq_false_iff, Ne, isTerminal_vocabulary]
    have known := (built rule member a inside).of_mem_names within
    exact notMem_terminalKinds built (fun _ => id) known

/-- A grammar that is read from a document can be written, and what is written is read as the same
grammar with the rules of each head put together. There is only no form for a bar in a branch. -/
theorem document_roundTrip (d : Document) (g : Grammar) (read : ofDocument d = .ok g)
    (barless : d.BarlessBranches) :
    ∃ d', g.toDocument = .ok d' ∧ ofDocument d' = .ok g.regrouped := by
  obtain ⟨v, known⟩ := exists_vocabulary read
  have built := built_vocabulary <| known Item.Writable Item.folded_writable
    fun entries table entry listed branch inner items read =>
      ⟨Item.branch_ne_nil items, Item.bar_notMem_branch <|
        Vocabulary.bar_notMem_of_body read (barless entries table entry listed branch inner)⟩
  have back (rule : Rule) (member : rule ∈ g.rules) (a : Symbol) (inside : a ∈ rule.body) :
      g.vocabulary.ReadsBack a :=
    Vocabulary.readsBack_of_built (built rule member a inside)
  obtain ⟨d', made⟩ : ∃ d', g.toDocument = .ok d' := exists_toDocument fun rule member =>
    (Vocabulary.readsBack_sentence (back rule member)).imp fun _ => And.left
  exact ⟨d', made, ofDocument_toDocument (startable_of_ofDocument read) made
    fun rule member => Vocabulary.rewrites_self (back rule member)⟩

/-- The rules of `1` stand in two entries, since the key of one is a number, with those of `leaf`
between them. There are an alternative with an empty branch, a bar, a literal and an empty body. -/
def Document.scattered : Document :=
  .table [(.text "productions", .table [
    (.int 1, .list [.list [.table [(.text "alt", .list [.text "a leaf", .null])]], .null]),
    (.text "leaf", .text "b | 'Z'"),
    (.text "1", .list [.text "leaf 1"])])]

/-- The bar is folded, and what is written brings the rules of `1` together. -/
theorem document_roundTrip_scattered :
    let one : Name := ⟨"1", by decide⟩
    let leaf : Name := ⟨"leaf", by decide⟩
    let token (text : String) : Symbol := .terminal ⟨text, none⟩
    let choice : Rule := ⟨one, .alternative [.symbol (token "a"), .symbol (.nonTerminal leaf)]
      [[.symbol .epsilon]], []⟩
    let nothing : Rule := ⟨one, .epsilon, []⟩
    let folded : Rule := ⟨leaf, .alternative [.symbol (token "b")]
      [[.symbol (.terminal ⟨"Z", some "Z"⟩)]], []⟩
    let again : Rule := ⟨one, .nonTerminal leaf, [.nonTerminal one]⟩
    let g : Grammar := ⟨[choice, nothing, folded, again], some one⟩
    (ofDocument Document.scattered = .ok g ∧ Document.scattered.BarlessBranches) ∧
      ∃ d', g.toDocument = .ok d' ∧
        ofDocument d' = .ok ⟨[choice, nothing, again, folded], some one⟩ := by
  intro one leaf token choice nothing folded again g
  have read : ofDocument Document.scattered = .ok g := rfl
  have barless : Document.scattered.BarlessBranches := by
    rintro _ ⟨⟩
    decide
  have together : g.regrouped = ⟨[choice, nothing, again, folded], some one⟩ := rfl
  exact ⟨⟨read, barless⟩, together ▸ document_roundTrip _ g read barless⟩

end Grammar

end Ebnf
