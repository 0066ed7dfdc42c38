import Mathlib
import Ebnf.Proofs.Analysis.Follow
import Ebnf.Proofs.Pass.Removal

/-! FOLLOW sets next to rules that cannot be reached. The sets are read off all rules there are, so
a rule of an unreachable head has a say in what comes after the non-terminals in its body. Removal
of such rules keeps every derivation from the start symbol, and it leaves only heads that can be
reached. So the sets that are found after it hold what their description promises for the grammar
before, and the sets that are found before it hold more wherever an unreachable head adds to
them. -/
namespace Ebnf

open Grammar Editing

variable {g g' : Grammar} {s t : Sentence} {x : Terminal} {start name : Name}
  {back : Sentence} {reached : List Name} {limits : Limits}

namespace Grammar

/-! Derivations in a part of a grammar. -/

theorem Derives.of_subset (fewer : ∀ rule ∈ g'.rules, rule ∈ g.rules) (derives : g'.Derives s t) :
    g.Derives s t := by
  refine Relation.ReflTransGen.mono (fun u v step => ?_) _ _ derives
  obtain ⟨rule, member, before, after, split, joined⟩ := step
  exact ⟨rule, fewer rule member, before, after, split, joined⟩

/-- All non-terminals in a sentence can be reached. -/
def Within (reached : List Name) (s : Sentence) : Prop := ∀ n, .nonTerminal n ∈ s → n ∈ reached

/-- What is derived from names that can be reached only takes rules of such names. -/
theorem Derives.retain (found : g.reachable = .ok reached) (within : Within reached s)
    (derives : g.Derives s t) : (g.retain (· ∈ reached)).Derives s t ∧ Within reached t := by
  induction derives with
  | refl => exact ⟨.refl, within⟩
  | tail _ step ih =>
    obtain ⟨derives, within⟩ := ih
    obtain ⟨rule, member, before, after, rfl, rfl⟩ := step
    have headed : rule.head ∈ reached := within rule.head (by simp)
    have kept : rule ∈ (g.retain (· ∈ reached)).rules :=
      List.mem_filter.mpr ⟨member, by simpa using headed⟩
    refine ⟨derives.tail ⟨rule, kept, before, after, rfl, rfl⟩, fun n occurs => ?_⟩
    rcases List.mem_append.mp occurs with inside | later
    · rcases List.mem_append.mp inside with earlier | body
      · exact within n (List.mem_append_left _ earlier)
      · exact reached_of_mem_namesIn found member headed (Symbol.mem_namesIn_of_mem body)
    · exact within n (List.mem_append_right _ (List.mem_cons_of_mem _ later))

theorem precedes_retain (found : g.reachable = .ok reached) (member : start ∈ reached) :
    (g.retain (· ∈ reached)).Precedes [.nonTerminal start] name back ↔
      g.Precedes [.nonTerminal start] name back := by
  have within : Within reached [.nonTerminal start] := by simpa [Within] using member
  constructor
  · rintro ⟨u, front, derives, shown⟩
    exact ⟨u, front, derives.of_subset fun rule kept => (List.mem_filter.mp kept).1, shown⟩
  · rintro ⟨u, front, derives, shown⟩
    exact ⟨u, front, (derives.retain found within).1, shown⟩

theorem heads_retain (keep : Name → Bool) : (g.retain keep).heads = g.heads.filter keep := by
  rw [heads, heads, ← eraseDups_filter, List.filter_map]
  rfl

/-! What comes after a non-terminal. -/

/-- Where the start symbol reaches every head, what comes after a non-terminal does so in a sentence
derived from the start symbol. -/
theorem followed_iff_of_reaches (headed : start ∈ g.heads)
    (reaches : ∀ head ∈ g.heads, g.Reaches start head) : g.Followed start x name ↔
      (∃ rest, g.Precedes [.nonTerminal start] name (.terminal x :: rest)) ∨
        x = Terminal.endOfInput ∧ g.Precedes [.nonTerminal start] name [] := by
  rw [followed_iff]
  refine or_congr_left ⟨?_, fun ⟨rest, precedes⟩ => ⟨start, headed, rest, precedes⟩⟩
  rintro ⟨head, listed, rest, precedes⟩
  exact (reaches head listed).precedes precedes

/-- Otherwise it may also do so in what an unreachable head derives. -/
theorem followed_iff_or_unreached (headed : start ∈ g.heads) : g.Followed start x name ↔
    ((∃ rest, g.Precedes [.nonTerminal start] name (.terminal x :: rest)) ∨
        x = Terminal.endOfInput ∧ g.Precedes [.nonTerminal start] name []) ∨
      ∃ head ∈ g.heads, ¬ g.Reaches start head ∧
        ∃ rest, g.Precedes [.nonTerminal head] name (.terminal x :: rest) := by
  rw [followed_iff]
  constructor
  · rintro (⟨head, listed, rest, precedes⟩ | last)
    · by_cases reaches : g.Reaches start head
      · exact .inl (.inl (reaches.precedes precedes))
      · exact .inr ⟨head, listed, reaches, rest, precedes⟩
    · exact .inl (.inr last)
  · rintro ((⟨rest, precedes⟩ | last) | ⟨head, listed, _, rest, precedes⟩)
    · exact .inl ⟨start, headed, rest, precedes⟩
    · exact .inr last
    · exact .inl ⟨head, listed, rest, precedes⟩

/-- After removal the FOLLOW sets of the heads that are left hold what their description promises
for the grammar before. -/
theorem exists_followSets_retain (found : g.reachable = .ok reached)
    (started : g.requireStart = .ok start) (headed : start ∈ g.heads) :
    ∃ kept, (g.retain (· ∈ reached)).followSets = .ok kept ∧
      kept.map FollowSet.symbol = g.heads.filter (· ∈ reached) ∧
      ∀ set ∈ kept, ∀ x, x ∈ set.terminals ↔
        (∃ rest, g.Precedes [.nonTerminal start] set.symbol (.terminal x :: rest)) ∨
          x = Terminal.endOfInput ∧ g.Precedes [.nonTerminal start] set.symbol [] := by
  obtain ⟨plain, first, started', reached_iff⟩ := reachable_eq_ok found
  obtain rfl : start = first := Except.ok.inj (started.symm.trans started')
  have begun : start ∈ reached := (reached_iff start).mpr .refl
  have pruned : g.Pruned (g.retain (· ∈ reached)) := by
    refine pruned_retain found fun empty => ?_
    simp [heads, empty] at headed
  have plain' := plain_of_subset (fun rule => pruned.sublist.mem) plain
  have headed' : start ∈ (g.retain (· ∈ reached)).heads := by
    rw [heads_retain]
    exact List.mem_filter.mpr ⟨headed, by simpa using begun⟩
  have left : (g.retain (· ∈ reached)).requireStart = .ok start :=
    requireStart_eq_ok.mpr ⟨(requireStart_eq_ok.mp started).1, fun _ => headed'⟩
  have reaches : ∀ head ∈ (g.retain (· ∈ reached)).heads,
      (g.retain (· ∈ reached)).Reaches start head := by
    obtain empty | ⟨first, again, all⟩ := pruned.reached
    · simp [heads, empty]
    · exact Except.ok.inj (left.symm.trans again) ▸ all
  obtain ⟨kept, listed, symbols, follows⟩ :=
    exists_followSets (beginnings_eq_ok.mpr ⟨plain', rfl⟩) left
  refine ⟨kept, listed, symbols.trans (heads_retain _), fun set member x => ?_⟩
  rw [follows set member x, followed_iff_of_reaches headed' reaches]
  simp only [precedes_retain found begun]

end Grammar

/-- Removal of unreachable rules succeeds on a grammar without shorthand that starts from a head. It
leaves the FOLLOW sets of the heads that can be reached. What is in them afterwards is what comes
after the non-terminal in a sentence that the start symbol derives. Before, there also was what
comes after it in what an unreachable head derives. -/
theorem Pass.unreachable_followSets (plain : g.hasShorthand = false)
    (chosen : g.start = some start) (headed : start ∈ g.heads) (limits : Limits) :
    let r := (Pass.single .unreachable).run limits g
    r.outcome = .ok () ∧ ∃ sets kept, g.followSets = .ok sets ∧ r.grammar.followSets = .ok kept ∧
      g.ListsHeads (sets.map FollowSet.symbol) ∧
      (kept.map FollowSet.symbol).Sublist (sets.map FollowSet.symbol) ∧
      (∀ head ∈ g.heads, head ∈ kept.map FollowSet.symbol ↔ g.Reaches start head) ∧
      ∀ set ∈ sets, ∀ left ∈ kept, left.symbol = set.symbol → ∀ x,
        (x ∈ left.terminals ↔
          (∃ rest, g.Precedes [.nonTerminal start] set.symbol (.terminal x :: rest)) ∨
            x = Terminal.endOfInput ∧ g.Precedes [.nonTerminal start] set.symbol []) ∧
        (x ∈ set.terminals ↔ x ∈ left.terminals ∨ ∃ head ∈ g.heads, ¬ g.Reaches start head ∧
          ∃ rest, g.Precedes [.nonTerminal head] set.symbol (.terminal x :: rest)) := by
  intro r
  have started : g.requireStart = .ok start := requireStart_eq_ok.mpr ⟨chosen, fun _ => headed⟩
  obtain ⟨reached, found⟩ := reachable_of_requireStart plain started
  obtain ⟨_, first, started', reached_iff⟩ := reachable_eq_ok found
  obtain rfl : start = first := Except.ok.inj (started.symm.trans started')
  obtain ⟨ended, same⟩ : r.outcome = .ok () ∧ r.grammar = g.retain (· ∈ reached) :=
    leaves_removeUnreachable found
  obtain ⟨sets, listed, symbols, follows⟩ :=
    exists_followSets (beginnings_eq_ok.mpr ⟨plain, rfl⟩) started
  obtain ⟨kept, listed', symbols', exact⟩ := exists_followSets_retain found started headed
  refine ⟨ended, sets, kept, listed, same ▸ listed', symbols ▸ listsHeads_heads g, ?_, ?_, ?_⟩
  · rw [symbols, symbols']
    exact List.filter_sublist
  · intro head known
    rw [symbols', List.mem_filter, reaches_iff, ← reached_iff]
    simp [known]
  · intro set member left remaining named x
    have fewer := exact left remaining x
    rw [named] at fewer
    exact ⟨fewer, (follows set member x).trans ((followed_iff_or_unreached headed).trans
      (or_congr_left fewer.symm))⟩

/-- `title → name` and `name → a`, next to `margin → name b`, which cannot be reached. -/
def Grammar.marginal : Grammar :=
  let name : Name := ⟨"name", by decide⟩
  let token (text : String) : Symbol := .terminal ⟨text, none⟩
  .ofRules [⟨⟨"title", by decide⟩, .nonTerminal name, []⟩, ⟨name, token "a", []⟩,
    ⟨⟨"margin", by decide⟩, .nonTerminal name, [token "b"]⟩] none

theorem Pass.unreachable_marginal :
    let title : Name := ⟨"title", by decide⟩
    let r := (Pass.single .unreachable).run (.ofCounts 1 1) marginal
    (marginal.hasShorthand = false ∧ marginal.start = some title ∧ title ∈ marginal.heads) ∧
      r.outcome = .ok () ∧ ∃ sets kept, marginal.followSets = .ok sets ∧
        r.grammar.followSets = .ok kept ∧ marginal.ListsHeads (sets.map FollowSet.symbol) ∧
        (kept.map FollowSet.symbol).Sublist (sets.map FollowSet.symbol) ∧
        (∀ head ∈ marginal.heads,
          head ∈ kept.map FollowSet.symbol ↔ marginal.Reaches title head) ∧
        ∀ set ∈ sets, ∀ left ∈ kept, left.symbol = set.symbol → ∀ x,
          (x ∈ left.terminals ↔
            (∃ rest, marginal.Precedes [.nonTerminal title] set.symbol (.terminal x :: rest)) ∨
              x = Terminal.endOfInput ∧ marginal.Precedes [.nonTerminal title] set.symbol []) ∧
          (x ∈ set.terminals ↔ x ∈ left.terminals ∨
            ∃ head ∈ marginal.heads, ¬ marginal.Reaches title head ∧
              ∃ rest, marginal.Precedes [.nonTerminal head] set.symbol (.terminal x :: rest)) := by
  have plain : marginal.hasShorthand = false := by decide
  have headed : (⟨"title", by decide⟩ : Name) ∈ marginal.heads := by decide
  intro title r
  exact ⟨⟨plain, rfl, headed⟩, Pass.unreachable_followSets plain rfl headed (.ofCounts 1 1)⟩

/-- The start symbol of `marginal` reaches `name`, and `b` follows `name` only as long as the rule
of `margin` is there. -/
theorem Grammar.marginal_follow :
    let name : Name := ⟨"name", by decide⟩
    let b : Terminal := ⟨"b", none⟩
    let r := (Pass.single .unreachable).run (.ofCounts 1 1) marginal
    marginal.hasShorthand = false ∧ marginal.start = some ⟨"title", by decide⟩ ∧
      ⟨"title", by decide⟩ ∈ marginal.heads ∧ marginal.Reaches ⟨"title", by decide⟩ name ∧
      (∃ sets, marginal.followSets = .ok sets ∧
        ∃ set ∈ sets, set.symbol = name ∧ b ∈ set.terminals) ∧
      ∃ kept, r.outcome = .ok () ∧ r.grammar.followSets = .ok kept ∧
        ∀ set ∈ kept, set.symbol = name → b ∉ set.terminals := by
  intro name b r
  have before : marginal.followSets = .ok [⟨⟨"title", by decide⟩, [.endOfInput]⟩,
      ⟨name, [.endOfInput, b]⟩, ⟨⟨"margin", by decide⟩, []⟩] := by cbv
  have after : r.grammar.followSets = .ok [⟨⟨"title", by decide⟩, [.endOfInput]⟩,
      ⟨name, [.endOfInput]⟩] := by cbv
  have ended : r.outcome = .ok () := by cbv
  have reaches : marginal.Reaches ⟨"title", by decide⟩ name :=
    reaches_iff.mpr (.single (mem_mentions.mpr ⟨_, List.mem_cons_self, rfl, List.mem_cons_self⟩))
  refine ⟨by decide, rfl, by decide, reaches, ⟨_, before, _, .tail _ (.head _), rfl, by simp⟩,
    _, ended, after, ?_⟩
  simp [name, b, Terminal.endOfInput]

end Ebnf
