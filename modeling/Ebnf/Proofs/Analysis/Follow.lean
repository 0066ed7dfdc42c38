import Ebnf.Analysis.Follow
import Ebnf.Proofs.Analysis.First
import Ebnf.Proofs.Analysis.Reachability

/-! FOLLOW sets are exact. What comes right after a non-terminal stands behind it in a body, past
what can vanish there, or comes after the head of a body that the non-terminal ends. A derivation
only ever puts such bodies one into the other, so it brings nothing else together. -/
namespace Ebnf

variable {g : Grammar} {s t u before after back front : Sentence} {x : Terminal}
  {start head name : Name} {rule : Rule}

namespace Sentence

variable {nullable begun followed : List Name}

/-- What is read off a body holds at one of the places where the non-terminal stands. -/
theorem follows_iff : s.follows nullable begun followed head name x = true ↔
    ∃ before after : Sentence, s = before ++ .nonTerminal name :: after ∧
      (after.begins nullable begun x = true ∨
        head ∈ followed ∧ after.vanishes nullable = true) := by
  induction s with
  | nil => simp [follows]
  | cons a s ih =>
    simp only [follows, Bool.or_eq_true, Bool.and_eq_true, decide_eq_true_eq, ih]
    constructor
    · rintro (⟨rfl, here⟩ | ⟨before, after, rfl, later⟩)
      · exact ⟨[], s, rfl, here⟩
      · exact ⟨a :: before, after, rfl, later⟩
    · rintro ⟨before, after, split, found⟩
      rcases List.cons_eq_append_iff.mp split with ⟨rfl, same⟩ | ⟨rest, rfl, rfl⟩
      · obtain ⟨rfl, rfl⟩ := List.cons.inj same
        exact .inl ⟨rfl, found⟩
      · exact .inr ⟨rest, after, rfl, found⟩

end Sentence

namespace Grammar

/-! Bodies. -/

/-- `g.Followed start x name` says that `x` comes right after `name`, told by the bodies of the
rules. -/
inductive Followed (g : Grammar) (start : Name) (x : Terminal) : Name → Prop where
  | atEnd (last : x = Terminal.endOfInput) : Followed g start x start
  | inside {rule : Rule} {name : Name} {before after : Sentence} (member : rule ∈ g.rules)
      (body : rule.body = before ++ .nonTerminal name :: after) (opens : g.Opens after x) :
      Followed g start x name
  | behind {rule : Rule} {name : Name} {before after : Sentence} (member : rule ∈ g.rules)
      (body : rule.body = before ++ .nonTerminal name :: after) (vanishes : g.Vanishes after)
      (outer : Followed g start x rule.head) : Followed g start x name

theorem Followed.mem (followed : g.Followed start x name) :
    x = Terminal.endOfInput ∨ x ∈ g.terminals := by
  induction followed with
  | atEnd last => exact .inl last
  | inside member body opens =>
    refine .inr (opens.mem.elim (fun here => ?_) id)
    exact mem_terminals.mpr ⟨_, member, body ▸ List.mem_append_right _ (.tail _ here)⟩
  | behind _ _ _ _ ih => exact ih

/-! Bodies make derivations. -/

theorem precedes_of_split (derives : g.Derives s (before ++ .nonTerminal name :: after))
    (shown : after.visible = back) : g.Precedes s name back :=
  ⟨_, before.visible, derives, by simp [shown]⟩

theorem precedes_self : g.Precedes [.nonTerminal name] name [] :=
  ⟨_, [], .refl, Sentence.visible_nonTerminal⟩

theorem exists_of_precedes (precedes : g.Precedes s name back) : ∃ before after : Sentence,
    g.Derives s (before ++ .nonTerminal name :: after) ∧ after.visible = back := by
  obtain ⟨u, front, derives, shown⟩ := precedes
  obtain ⟨before, after, rfl, _, last⟩ := Sentence.exists_of_visible shown
  exact ⟨before, after, derives, last⟩

/-- A body takes the place of its head. -/
theorem Derives.of_body (member : rule ∈ g.rules)
    (derives : g.Derives s (before ++ .nonTerminal rule.head :: after)) :
    g.Derives s (before ++ rule.body ++ after) :=
  derives.tail ⟨rule, member, before, after, rfl, rfl⟩

theorem Precedes.of_body (member : rule ∈ g.rules)
    (body : rule.body = before ++ .nonTerminal name :: after) (vanishes : g.Vanishes after)
    (precedes : g.Precedes s rule.head back) : g.Precedes s name back := by
  obtain ⟨first, last, derives, rfl⟩ := exists_of_precedes precedes
  obtain ⟨gone, vanished, nothing⟩ := vanishes
  have inner : g.Derives s (first ++ before ++ [.nonTerminal name] ++ (after ++ last)) := by
    simpa [body] using derives.of_body member
  have closed : g.Derives s (first ++ before ++ [.nonTerminal name] ++ (gone ++ last)) :=
    inner.trans (Derives.append .refl (vanished.append .refl))
  rw [List.append_assoc _ [_], List.singleton_append] at closed
  exact precedes_of_split closed (by simp [nothing])

theorem precedes_of_opens (derives : g.Derives s (before ++ .nonTerminal name :: after))
    (opens : g.Opens after x) : ∃ rest, g.Precedes s name (.terminal x :: rest) := by
  obtain ⟨opened, rest, further, first⟩ := opens
  have inside : g.Derives (.nonTerminal name :: after) (.nonTerminal name :: opened) :=
    Derives.append (s := [.nonTerminal name]) .refl further
  exact ⟨rest, precedes_of_split (derives.trans (Derives.append .refl inside)) first⟩

theorem precedes_of_followed (followed : g.Followed start x name) :
    (∃ head ∈ g.heads, ∃ rest, g.Precedes [.nonTerminal head] name (.terminal x :: rest)) ∨
      x = Terminal.endOfInput ∧ g.Precedes [.nonTerminal start] name [] := by
  induction followed with
  | atEnd last => exact .inr ⟨last, precedes_self⟩
  | @inside rule _ _ _ member body opens =>
    have step := step_nonTerminal.mpr ⟨rule, member, rfl, body.symm⟩
    exact .inl ⟨rule.head, head_mem_heads member, precedes_of_opens (.single step) opens⟩
  | behind member body vanishes _ ih =>
    rcases ih with ⟨head, headed, rest, precedes⟩ | ⟨last, precedes⟩
    · exact .inl ⟨head, headed, rest, precedes.of_body member body vanishes⟩
    · exact .inr ⟨last, precedes.of_body member body vanishes⟩

/-! Derivations are made of bodies. -/

/-- `g.Meets x last s` says that `x` comes next if `s` is what is still to come: `x` opens `s`, or
`s` can vanish and `x` comes at the end. -/
def Meets (g : Grammar) (x : Terminal) (last : Prop) (s : Sentence) : Prop :=
  g.Opens s x ∨ last ∧ g.Vanishes s

variable {last : Prop}

theorem meets_append :
    g.Meets x last (s ++ t) ↔ g.Opens s x ∨ g.Vanishes s ∧ g.Meets x last t := by
  rw [Meets, Meets, opens_append, vanishes_append, and_or_left, or_assoc, and_left_comm]

theorem Meets.of_derives (derives : g.Derives s t) (meets : g.Meets x last t) :
    g.Meets x last s :=
  Or.imp (Opens.of_derives derives) (And.imp_right (Vanishes.of_derives derives)) meets

/-- Wherever a non-terminal stands in `s` and `x` comes next, `x` follows it. -/
def Follows (g : Grammar) (start : Name) (x : Terminal) (last : Prop) (s : Sentence) : Prop :=
  ∀ before name after, s = before ++ .nonTerminal name :: after → g.Meets x last after →
    g.Followed start x name

/-- A non-terminal of the new sentence stands before the body, in it or behind it. Before it, what
comes next came next already; in it, what comes next is in the body or comes after its head. -/
theorem Follows.of_step (follows : g.Follows start x last s) (step : g.Step s t) :
    g.Follows start x last t := by
  obtain ⟨rule, member, front, back, rfl, rfl⟩ := step
  intro before name after split meets
  rcases append_eq_append_cons split with ⟨rest, early, rfl⟩ | ⟨rest, rfl, rfl⟩
  · rcases append_eq_append_cons early with ⟨rest, rfl, rfl⟩ | ⟨rest, rfl, body⟩
    · have step : g.Step (rest ++ .nonTerminal rule.head :: back) (rest ++ rule.body ++ back) :=
        ⟨rule, member, rest, back, rfl, rfl⟩
      exact follows before name _ (by simp) (meets.of_derives (.single step))
    · rcases meets_append.mp meets with opens | ⟨vanishes, later⟩
      · exact .inside member body opens
      · exact .behind member body vanishes (follows front _ back rfl later)
  · exact follows (front ++ .nonTerminal rule.head :: rest) name after (by simp) meets

theorem Follows.of_derives (derives : g.Derives s t) (follows : g.Follows start x last s) :
    g.Follows start x last t := by
  induction derives with
  | refl => exact follows
  | tail _ step ih => exact ih.of_step step

/-- Behind a non-terminal that stands alone there is only the end. -/
theorem follows_nonTerminal (atEnd : last → x = Terminal.endOfInput ∧ head = start) :
    g.Follows start x last [.nonTerminal head] := by
  intro before name after alone meets
  rcases List.cons_eq_append_iff.mp alone with ⟨rfl, same⟩ | ⟨rest, rfl, nothing⟩
  · obtain ⟨named, rfl⟩ := List.cons.inj same
    obtain rfl : name = head := by simpa using named
    obtain ⟨last, rfl⟩ := atEnd (meets.resolve_left not_opens_nil).1
    exact .atEnd last
  · simp at nothing

theorem followed_iff : g.Followed start x name ↔
    (∃ head ∈ g.heads, ∃ rest, g.Precedes [.nonTerminal head] name (.terminal x :: rest)) ∨
      x = Terminal.endOfInput ∧ g.Precedes [.nonTerminal start] name [] := by
  refine ⟨precedes_of_followed, ?_⟩
  rintro (⟨head, _, rest, precedes⟩ | ⟨last, precedes⟩)
  · obtain ⟨before, after, derives, shown⟩ := exists_of_precedes precedes
    have alone : g.Follows start x False [.nonTerminal head] := follows_nonTerminal False.elim
    exact alone.of_derives derives before name after rfl (.inl ⟨after, rest, .refl, shown⟩)
  · obtain ⟨before, after, derives, shown⟩ := exists_of_precedes precedes
    have alone : g.Follows start x True [.nonTerminal start] :=
      follows_nonTerminal fun _ => ⟨last, rfl⟩
    exact alone.of_derives derives before name after rfl (.inr ⟨trivial, after, .refl, shown⟩)

/-! Saturation. -/

section Sets

variable {b : Beginnings} (found : g.beginnings = .ok b)
include found

theorem mem_followedBy :
    name ∈ g.followedBy start b x ↔ name ∈ g.heads ∧ g.Followed start x name := by
  obtain ⟨plain, _⟩ := beginnings_eq_ok.mp found
  have opens {rule : Rule} {before after : Sentence} {name : Name} (member : rule ∈ g.rules)
      (body : rule.body = before ++ .nonTerminal name :: after) :
      after.begins b.nullable (b.begunBy x) x = true ↔ g.Opens after x := by
    have plain := body ▸ plain_of_mem plain member
    exact begins_beginnings_iff found (Sentence.plain_cons.mp (Sentence.plain_append.mp plain).2).2
  constructor
  · intro known
    refine saturate_sound (P := fun n => n ∈ g.heads ∧ g.Followed start x n) ?_ (by simp) name known
    intro known name headed sound supported
    simp only [Bool.or_eq_true, Bool.and_eq_true, decide_eq_true_eq, List.any_eq_true,
      Sentence.follows_iff] at supported
    rcases supported with ⟨rfl, last⟩ | ⟨rule, member, before, after, body, here | behind⟩
    · exact ⟨headed, .atEnd last⟩
    · exact ⟨headed, .inside member body ((opens member body).mp here)⟩
    · have vanishes := (vanishes_beginnings_iff found).mp behind.2
      exact ⟨headed, .behind member body vanishes (sound _ behind.1).2⟩
  · rintro ⟨headed, followed⟩
    induction followed with
    | atEnd last => exact mem_saturate_of_supports headed (by simp [last])
    | inside member body here =>
      refine mem_saturate_of_supports headed (Bool.or_eq_true_iff.mpr (.inr ?_))
      refine List.any_eq_true.mpr ⟨_, member, Sentence.follows_iff.mpr ⟨_, _, body, .inl ?_⟩⟩
      exact (opens member body).mpr here
    | behind member body vanishes _ ih =>
      refine mem_saturate_of_supports headed (Bool.or_eq_true_iff.mpr (.inr ?_))
      refine List.any_eq_true.mpr ⟨_, member, Sentence.follows_iff.mpr ⟨_, _, body, .inr ?_⟩⟩
      exact ⟨ih (head_mem_heads member), (vanishes_beginnings_iff found).mpr vanishes⟩

theorem exists_followSets (started : g.requireStart = .ok start) :
    ∃ sets, g.followSets = .ok sets ∧ sets.map FollowSet.symbol = g.heads ∧
      ∀ set ∈ sets, ∀ x, x ∈ set.terminals ↔ g.Followed start x set.symbol := by
  let facts := (Terminal.endOfInput :: g.terminals).eraseDups.map fun t =>
    (t, g.followedBy start b t)
  refine ⟨g.heads.map fun head => .of head ((facts.filter (head ∈ ·.2)).map Prod.fst), ?_, ?_, ?_⟩
  · simp [facts, followSets, started, found, bind, Except.bind, pure, Except.pure]
  · rw [List.map_map]
    exact List.map_id g.heads
  · intro set listed x
    obtain ⟨head, headed, rfl⟩ := List.mem_map.mp listed
    refine Terminal.mem_listing.trans ?_
    simp only [facts, List.mem_map, List.mem_filter, decide_eq_true_eq, List.mem_eraseDups,
      List.mem_cons]
    constructor
    · rintro ⟨_, ⟨⟨t, _, rfl⟩, known⟩, rfl⟩
      exact ((mem_followedBy found).mp known).2
    · intro followed
      exact ⟨_, ⟨⟨x, followed.mem, rfl⟩, (mem_followedBy found).mpr ⟨headed, followed⟩⟩, rfl⟩

end Sets

/-! Sentences derived from the start symbol. -/

/-- What stands around a symbol stays there. -/
theorem Reaches.precedes (reaches : g.Reaches start head)
    (precedes : g.Precedes [.nonTerminal head] name (.terminal x :: back)) :
    ∃ rest, g.Precedes [.nonTerminal start] name (.terminal x :: rest) := by
  obtain ⟨s, derives, occurs⟩ := reaches
  obtain ⟨before, after, rfl⟩ := List.append_of_mem occurs
  obtain ⟨first, later, further, shown⟩ := exists_of_precedes precedes
  have inside : g.Derives ([.nonTerminal head] ++ after)
      (first ++ .nonTerminal name :: later ++ after) := further.append .refl
  have derives : g.Derives [.nonTerminal start]
      ((before ++ first) ++ .nonTerminal name :: (later ++ after)) := by
    rw [List.append_assoc before, ← List.cons_append, ← List.append_assoc first]
    exact derives.trans (Derives.append .refl inside)
  exact ⟨back ++ Sentence.visible after, precedes_of_split derives (by simp [shown])⟩

/-- The FOLLOW sets of a grammar without shorthand are listed by head. A terminal is in a set if and
only if it comes right after the non-terminal in what some head derives, or it is the end of the
input and the non-terminal ends what the start symbol derives. Where the start symbol reaches every
head, what other heads derive need not be looked at. -/
theorem followSets_exact (plain : g.hasShorthand = false) (chosen : g.start = some start)
    (headed : start ∈ g.heads) :
    ∃ sets, g.followSets = .ok sets ∧ g.ListsHeads (sets.map FollowSet.symbol) ∧
      (∀ set ∈ sets, ∀ x, x ∈ set.terminals ↔
        (∃ head ∈ g.heads, ∃ rest,
          g.Precedes [.nonTerminal head] set.symbol (.terminal x :: rest)) ∨
        x = Terminal.endOfInput ∧ g.Precedes [.nonTerminal start] set.symbol []) ∧
      ((∀ head ∈ g.heads, g.Reaches start head) → ∀ set ∈ sets, ∀ x, x ∈ set.terminals ↔
        (∃ rest, g.Precedes [.nonTerminal start] set.symbol (.terminal x :: rest)) ∨
        x = Terminal.endOfInput ∧ g.Precedes [.nonTerminal start] set.symbol []) := by
  have started : g.requireStart = .ok start := requireStart_eq_ok.mpr ⟨chosen, fun _ => headed⟩
  obtain ⟨sets, found, symbols, exact⟩ :=
    exists_followSets (beginnings_eq_ok.mpr ⟨plain, rfl⟩) started
  refine ⟨sets, found, symbols ▸ listsHeads_heads g, ?_, ?_⟩
  · exact fun set listed x => (exact set listed x).trans followed_iff
  · intro reached set listed x
    rw [exact set listed x, followed_iff]
    refine or_congr_left ⟨?_, fun ⟨rest, precedes⟩ => ⟨start, headed, rest, precedes⟩⟩
    exact fun ⟨head, listed, rest, precedes⟩ => (reached head listed).precedes precedes

/-- `H → I I x`, `H → I` and `I → ε`. What stands behind the first `I` can vanish, and `I` ends what
the start symbol derives. -/
def doubled : Grammar :=
  .ofRules [⟨⟨"H", by decide⟩, .nonTerminal ⟨"I", by decide⟩,
      [.nonTerminal ⟨"I", by decide⟩, .terminal ⟨"x", none⟩]⟩,
    ⟨⟨"H", by decide⟩, .nonTerminal ⟨"I", by decide⟩, []⟩,
    ⟨⟨"I", by decide⟩, .epsilon, []⟩] none

theorem doubled_derives : doubled.Derives [.nonTerminal ⟨"H", by decide⟩]
      [.nonTerminal ⟨"I", by decide⟩, .nonTerminal ⟨"I", by decide⟩, .terminal ⟨"x", none⟩] ∧
    doubled.Derives [.nonTerminal ⟨"H", by decide⟩] [.nonTerminal ⟨"I", by decide⟩] := by
  have body (rule : Rule) (member : rule ∈ doubled.rules) :
      doubled.Derives [.nonTerminal rule.head] rule.body :=
    .single (step_nonTerminal.mpr ⟨rule, member, rfl, rfl⟩)
  exact ⟨body ⟨_, _, [_, _]⟩ (by simp [doubled, ofRules]),
    body ⟨_, _, []⟩ (by simp [doubled, ofRules])⟩

theorem followSets_doubled : doubled.hasShorthand = false ∧
    doubled.start = some ⟨"H", by decide⟩ ∧ ⟨"H", by decide⟩ ∈ doubled.heads ∧
    (∀ head ∈ doubled.heads, doubled.Reaches ⟨"H", by decide⟩ head) ∧
    ∃ sets, doubled.followSets = .ok sets ∧ ∃ set ∈ sets, set.symbol = ⟨"I", by decide⟩ ∧
      ⟨"x", none⟩ ∈ set.terminals ∧ Terminal.endOfInput ∈ set.terminals := by
  have plain : doubled.hasShorthand = false := by decide
  have chosen : doubled.start = some ⟨"H", by decide⟩ := rfl
  have headed : (⟨"H", by decide⟩ : Name) ∈ doubled.heads := mem_heads.mpr ⟨_, .head _, rfl⟩
  obtain ⟨both, unit⟩ := doubled_derives
  have reached : ∀ head ∈ doubled.heads, doubled.Reaches ⟨"H", by decide⟩ head := by
    intro head listed
    obtain ⟨rule, member, rfl⟩ := mem_heads.mp listed
    simp only [doubled, ofRules, List.mem_cons, List.not_mem_nil, or_false] at member
    rcases member with rfl | rfl | rfl
    · exact ⟨_, .refl, .head _⟩
    · exact ⟨_, .refl, .head _⟩
    · exact ⟨_, unit, .head _⟩
  obtain ⟨sets, found, heads, _, exact⟩ := followSets_exact plain chosen headed
  refine ⟨plain, chosen, headed, reached, sets, found, ?_⟩
  have listed : (⟨"I", by decide⟩ : Name) ∈ sets.map FollowSet.symbol :=
    (heads.1 _).mpr ⟨_, .tail _ (.tail _ (.head _)), rfl⟩
  obtain ⟨set, member, named⟩ := List.mem_map.mp listed
  have follows := exact reached set member
  rw [named] at follows
  refine ⟨set, member, named, (follows _).mpr (.inl ⟨[], ?_⟩), (follows _).mpr (.inr ⟨rfl, ?_⟩)⟩
  · exact ⟨_, [.nonTerminal ⟨"I", by decide⟩], both, by simp [Sentence.visible]⟩
  · exact ⟨_, [], unit, Sentence.visible_nonTerminal⟩

end Grammar
end Ebnf
