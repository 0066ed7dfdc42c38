import Ebnf.Grammar.Written
import Ebnf.Proofs.Grammar.Vocabulary
import Ebnf.Proofs.Results

/-! What is read from documents. The simple symbols in what is read are read from their own texts,
in the same vocabulary, and the branches of alternatives are either folded from a sequence at its
bars or read as they stand. -/
namespace Ebnf

/-! The reader. It takes documents apart as they are built, and so do the lemmas. -/

namespace Symbol

theorem choose_eq_ok {branches : List (List Item)} {s : Symbol} :
    choose branches = .ok s ↔ ∃ first others, branches = first :: others ∧
      s = .alternative (Item.branch first) (others.map Item.branch) := by
  cases branches <;> simp [choose, eq_comm]

end Symbol

namespace Vocabulary

variable {v : Vocabulary} {Q : List Item → Prop}

/-- The branches in a list are read as branches with a property. -/
def Allows (v : Vocabulary) (Q : List Item → Prop) (branches : List Document) : Prop :=
  ∀ d ∈ branches, ∀ items, v.body d = .ok items → Q (Item.branch items)

theorem Allows.left {ds es : List Document} (allows : v.Allows Q (ds ++ es)) : v.Allows Q ds :=
  fun d listed => allows d (List.mem_append_left _ listed)

theorem Allows.right {ds es : List Document} (allows : v.Allows Q (ds ++ es)) : v.Allows Q es :=
  fun d listed => allows d (List.mem_append_right _ listed)

mutual

theorem built_of_item (folded : Item.Folded Q) : (d : Document) → {s : Symbol} →
    v.Allows Q d.branches → v.item d = .ok (.symbol s) → s.Built v.Knows Q
  | .text _, _, _, read =>
    have spells := word_eq_ok.mp read
    .simple spells.plain spells.knows
  | .table entries, s, allows, read => by
    rw [item, bind_eq_ok] at read
    obtain ⟨s', read, same⟩ := read
    cases same
    exact built_of_shorthand folded entries allows read
  | .null, _, _, read | .bool _, _, _, read | .int _, _, _, read | .floating _, _, _, read
  | .list _, _, _, read => by cases read

theorem built_of_shorthand (folded : Item.Folded Q) : (entries : List (Key × Document)) →
    {s : Symbol} → v.Allows Q (Document.branchesUnder entries) → v.shorthand entries = .ok s →
      s.Built v.Knows Q
  | [], _, _, read => by cases read
  | [(key, value)], s, allows, read => by
    rw [Document.branchesUnder] at allows
    have inner : v.Allows Q value.branches := allows.left.right
    rw [shorthand] at read
    split at read
    · next alternative =>
      rw [bind_eq_ok] at read
      obtain ⟨branches, read, chosen⟩ := read
      obtain ⟨first, others, rfl, rfl⟩ := Symbol.choose_eq_ok.mp (mapError_eq_ok.mp chosen)
      have direct : v.Allows Q (value.items?.getD []) := by
        simpa [alternative] using allows.left.left
      have built := built_of_alternatives folded value direct inner read
      have branch {items : List Item} (listed : items ∈ (first :: others).map Item.branch) :
          Q items ∧ ∀ s, .symbol s ∈ items → s.Built v.Knows Q := by
        obtain ⟨written, known, rfl⟩ := List.mem_map.mp listed
        obtain ⟨cut, inside⟩ := built written known
        exact ⟨cut, fun s member => Symbol.built_of_mem_branch knows_epsilon inside member⟩
      exact .alternative (fun items listed => (branch listed).1) fun items listed =>
        (branch listed).2
    · split at read
      · rw [bind_eq_ok] at read
        obtain ⟨items, read, enclosed⟩ := read
        obtain ⟨lead, rest, folds, rfl⟩ := Symbol.enclose_eq_ok.mp (mapError_eq_ok.mp enclosed)
        refine .bracket fun s member => ?_
        exact Sentence.built_of_mem_ofItems knows_epsilon folded
          (built_of_body folded value inner read) (folds ▸ member)
      · cases read
  | _ :: _ :: _, _, _, read => by cases read

theorem built_of_alternatives (folded : Item.Folded Q) : (d : Document) →
    {branches : List (List Item)} → v.Allows Q (d.items?.getD []) → v.Allows Q d.branches →
      v.alternatives d = .ok branches → ∀ items ∈ branches, Q (Item.branch items) ∧
        ∀ s, .symbol s ∈ items → s.Built v.Knows Q
  | .list (first :: others), _, direct, inner, read =>
    built_of_bodies folded (first :: others) direct inner read
  | .list [], _, _, _, read | .null, _, _, _, read | .bool _, _, _, _, read
  | .int _, _, _, _, read | .floating _, _, _, _, read | .text _, _, _, _, read
  | .table _, _, _, _, read => by cases read

theorem built_of_body (folded : Item.Folded Q) : (d : Document) → {items : List Item} →
    v.Allows Q d.branches → v.body d = .ok items → ∀ s, .symbol s ∈ items → s.Built v.Knows Q
  | .null, _, _, read => by
    cases read
    simp
  | .text words, items, _, read => by
    intro s member
    rw [body, mapM_eq_ok] at read
    obtain ⟨word, _, spelled⟩ := exists_of_forall₂ read member
    have spells := word_eq_ok.mp spelled
    exact .simple spells.plain spells.knows
  | .list documents, _, allows, read => built_of_items folded documents allows read
  | .bool _, _, _, read | .int _, _, _, read | .floating _, _, _, read | .table _, _, _, read => by
    cases read

theorem built_of_items (folded : Item.Folded Q) : (ds : List Document) → {items : List Item} →
    v.Allows Q (Document.branchesIn ds) → v.items ds = .ok items →
      ∀ s, .symbol s ∈ items → s.Built v.Knows Q
  | [], _, _, read => by
    cases read
    simp
  | d :: rest, _, allows, read => by
    rw [items, bind_eq_ok] at read
    obtain ⟨item, first, read⟩ := read
    rw [bind_eq_ok] at read
    obtain ⟨later, read, same⟩ := read
    cases same
    intro s member
    rcases List.mem_cons.mp member with rfl | member
    · exact built_of_item folded d allows.left first
    · exact built_of_items folded rest allows.right read s member

theorem built_of_bodies (folded : Item.Folded Q) : (ds : List Document) →
    {branches : List (List Item)} → v.Allows Q ds → v.Allows Q (Document.branchesIn ds) →
      v.bodies ds = .ok branches → ∀ items ∈ branches, Q (Item.branch items) ∧
        ∀ s, .symbol s ∈ items → s.Built v.Knows Q
  | [], _, _, _, read => by
    cases read
    simp
  | d :: rest, _, direct, inner, read => by
    rw [bodies, bind_eq_ok] at read
    obtain ⟨branch, first, read⟩ := read
    rw [bind_eq_ok] at read
    obtain ⟨later, read, same⟩ := read
    cases same
    intro items member
    rcases List.mem_cons.mp member with rfl | member
    · exact ⟨direct d List.mem_cons_self items first, built_of_body folded d inner.left first⟩
    · exact built_of_bodies folded rest (fun d listed => direct d (List.mem_cons_of_mem _ listed))
        inner.right read items member

end

end Vocabulary

/-! Bars. Only the word for a bar is read as one. -/

theorem Item.branch_ne_nil (items : List Item) : branch items ≠ [] := by
  cases items <;> simp [branch]

theorem Item.bar_notMem_branch {items : List Item} (barless : .bar ∉ items) :
    .bar ∉ branch items := by
  cases items with
  | nil => simp [branch]
  | cons => exact barless

namespace Vocabulary

variable {v : Vocabulary} {d : Document} {items : List Item}

theorem items_eq_ok {ds : List Document} :
    v.items ds = .ok items ↔ List.Forall₂ (fun d item => v.item d = .ok item) ds items := by
  have same : v.items ds = ds.mapM v.item := by
    induction ds with
    | nil => rfl
    | cons d ds ih => rw [Vocabulary.items, List.mapM_cons, ih]
  rw [same, mapM_eq_ok]

theorem item_eq_bar (read : v.item d = .ok .bar) : d.text? = some "|" := by
  cases d with
  | text word =>
    rw [item, word_eq_ok] at read
    generalize made : Item.bar = item at read
    cases read with
    | bar => rfl
    | _ => cases made
  | table entries =>
    rw [item, bind_eq_ok] at read
    obtain ⟨_, _, made⟩ := read
    cases made
  | null | bool | int | floating | list => cases read

/-- A body without a bar in it is read as items without a bar. -/
theorem bar_notMem_of_body (read : v.body d = .ok items) (barless : d.hasBar = false) :
    .bar ∉ items := by
  intro occurs
  cases d with
  | null =>
    cases read
    cases occurs
  | text words =>
    rw [body, mapM_eq_ok] at read
    obtain ⟨word, listed, spelled⟩ := exists_of_forall₂ read occurs
    have same : (Document.text word).text? = some "|" := item_eq_bar (by rw [item]; exact spelled)
    obtain rfl : word = "|" := by simpa [Document.text?] using same
    simp [Document.hasBar, listed] at barless
  | list documents =>
    rw [body, items_eq_ok] at read
    obtain ⟨d, listed, made⟩ := exists_of_forall₂ read occurs
    have same := item_eq_bar made
    simp only [Document.hasBar, List.any_eq_false, decide_eq_true_eq] at barless
    exact barless d listed same
  | bool | int | floating | table => cases read

end Vocabulary

/-! Rules and grammars. -/

theorem Document.mem_branchesIn {branch : Document} {ds : List Document} :
    branch ∈ branchesIn ds ↔ ∃ d ∈ ds, branch ∈ d.branches := by
  induction ds with
  | nil => simp [branchesIn]
  | cons d ds ih => simp [branchesIn, ih]

namespace Vocabulary

variable {v : Vocabulary} {Q : List Item → Prop} {head : Key} {rule : Rule}

theorem rule_eq_ok {d : Document} : v.rule head d = .ok rule ↔
    ∃ name : Name, name.text = head.shown ∧
      ∃ items, v.body d = .ok items ∧ .ofItems name items = rule := by
  simp only [Vocabulary.rule, bind_eq_ok, mapError_eq_ok, Name.ofText_eq_ok, pure, Except.pure,
    Except.ok.injEq]

/-- The bodies of an entry: the elements of a list, or a single one. -/
theorem rules_eq_ok {d : Document} {rules : List Rule} (read : v.rules (head, d) = .ok rules)
    (member : rule ∈ rules) :
    ∃ body, (∀ branch ∈ body.branches, branch ∈ d.branches) ∧ v.rule head body = .ok rule := by
  have single (read : [d].mapM (v.rule head) = .ok rules) :
      ∃ body, (∀ branch ∈ body.branches, branch ∈ d.branches) ∧ v.rule head body = .ok rule := by
    obtain ⟨body, listed, made⟩ := exists_of_forall₂ (mapM_eq_ok.mp read) member
    obtain rfl := List.mem_singleton.mp listed
    exact ⟨body, fun _ inside => inside, made⟩
  cases d with
  | list bodies =>
    obtain ⟨body, listed, made⟩ := exists_of_forall₂ (mapM_eq_ok.mp read) member
    exact ⟨body, fun _ inside => Document.mem_branchesIn.mpr ⟨body, listed, inside⟩, made⟩
  | null | bool | int | floating | text | table => exact single read

theorem built_of_rule {d : Document} {a : Symbol} (folded : Item.Folded Q)
    (allows : v.Allows Q d.branches) (read : v.rule head d = .ok rule) (member : a ∈ rule.body) :
    a.Built v.Knows Q := by
  obtain ⟨name, _, items, body, rfl⟩ := rule_eq_ok.mp read
  rcases Rule.mem_body_ofBody member with rfl | inside
  · exact .simple rfl knows_epsilon
  · exact Sentence.built_of_mem_ofItems knows_epsilon folded (built_of_body folded d allows body)
      inside

end Vocabulary

namespace Grammar

variable {g : Grammar} {d : Document}

theorem ofDocument_eq_ok : ofDocument d = .ok g ↔ ∃ entries terminals start name lists,
    d.ruleTable = .ok entries ∧ d.terminalList? = .ok terminals ∧ d.startText? = .ok start ∧
    start.mapM Name.ofText = .ok name ∧
    List.Forall₂ (fun entry rules => Vocabulary.rules ⟨entries.map (·.1.shown), terminals⟩ entry =
      .ok rules) entries lists ∧
    ofRules lists.flatten name = g ∧ (g.rules ≠ [] → ∃ first, g.requireStart = .ok first) := by
  have checked (made : Grammar) : (do
      if made.rules ≠ [] then
        let _ ← made.requireStart.mapError Failure.misuse
      return made) = Except.ok g ↔
        made = g ∧ (g.rules ≠ [] → ∃ first, g.requireStart = .ok first) := by
    split
    · next some =>
      simp only [bind_eq_ok, mapError_eq_ok, pure, Except.pure, Except.ok.injEq]
      constructor
      · rintro ⟨first, started, rfl⟩
        exact ⟨rfl, fun _ => ⟨first, started⟩⟩
      · rintro ⟨rfl, started⟩
        obtain ⟨first, started⟩ := started some
        exact ⟨first, started, rfl⟩
    · next empty =>
      simp only [pure, Except.pure, Except.ok.injEq]
      exact ⟨fun same => ⟨same, fun some => absurd (same ▸ some) empty⟩, And.left⟩
  simp only [ofDocument, bind_eq_ok, mapError_eq_ok, mapM_eq_ok, checked]
  constructor
  · rintro ⟨entries, table, terminals, listed, start, text, lists, read, name, named, rest⟩
    exact ⟨entries, terminals, start, name, lists, table, listed, text, named, read, rest⟩
  · rintro ⟨entries, terminals, start, name, lists, table, listed, text, named, read, rest⟩
    exact ⟨entries, table, terminals, listed, start, text, lists, read, name, named, rest⟩

/-- All symbols of a grammar that was read are built in one vocabulary. -/
theorem exists_vocabulary (read : ofDocument d = .ok g) : ∃ v : Vocabulary, ∀ Q : List Item → Prop,
    Item.Folded Q → (∀ entries, d.ruleTable = .ok entries → ∀ entry ∈ entries,
      v.Allows Q entry.2.branches) → g.Built v.Knows Q := by
  obtain ⟨entries, terminals, _, _, lists, table, _, _, _, parts, rfl, _⟩ :=
    ofDocument_eq_ok.mp read
  refine ⟨⟨entries.map (·.1.shown), terminals⟩, fun Q folded allows rule member a inside => ?_⟩
  obtain ⟨rules, listed, member⟩ := List.mem_flatten.mp member
  obtain ⟨⟨head, value⟩, entry, made⟩ := exists_of_forall₂ parts listed
  obtain ⟨body, part, made⟩ := Vocabulary.rules_eq_ok made member
  exact Vocabulary.built_of_rule folded
    (fun branch inner => allows entries table _ entry branch (part branch inner)) made inside

end Grammar

end Ebnf
