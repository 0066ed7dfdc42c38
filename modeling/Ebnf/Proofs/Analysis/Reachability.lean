import Ebnf.Analysis.Reachability
import Ebnf.Language.Derives
import Ebnf.Proofs.Analysis.Search
import Ebnf.Proofs.Lookup

/-! The search for reachable non-terminals finds those, and only those, that occur in a sentence
which the start symbol derives. -/
namespace Ebnf

variable {pending mentioned queue : List Name} {mentions : Name → List Name} {n x y : Name}

theorem discover_sound : (∀ y ∈ (discover pending mentioned).1, y ∈ pending ∧ y ∈ mentioned) ∧
    ∀ y ∈ (discover pending mentioned).2, y ∈ pending := by
  induction mentioned generalizing pending with
  | nil => simp [discover]
  | cons name rest ih =>
    simp only [discover]
    split
    · next waiting =>
      obtain ⟨found, left⟩ := @ih (pending.erase name)
      refine ⟨fun y member => ?_, fun y later => List.mem_of_mem_erase (left y later)⟩
      rcases List.mem_cons.mp member with rfl | later
      · exact ⟨waiting, List.mem_cons_self⟩
      · obtain ⟨kept, occurs⟩ := found y later
        exact ⟨List.mem_of_mem_erase kept, List.mem_cons_of_mem _ occurs⟩
    · obtain ⟨found, left⟩ := @ih pending
      exact ⟨fun y member => (found y member).imp id (List.mem_cons_of_mem _), left⟩

theorem discover_complete (waiting : y ∈ pending) :
    (y ∈ (discover pending mentioned).1 ∨ y ∈ (discover pending mentioned).2) ∧
      (y ∈ mentioned → y ∈ (discover pending mentioned).1) := by
  induction mentioned generalizing pending with
  | nil => simpa [discover] using waiting
  | cons name rest ih =>
    simp only [discover]
    split
    · by_cases same : y = name
      · simp [same]
      · obtain ⟨either, found⟩ := ih ((List.mem_erase_of_ne same).mpr waiting)
        refine ⟨either.imp_left (List.mem_cons_of_mem _), fun occurs => ?_⟩
        exact List.mem_cons_of_mem _ (found ((List.mem_cons.mp occurs).resolve_left same))
    · next gone =>
      obtain ⟨either, found⟩ := ih waiting
      refine ⟨either, fun occurs => found ((List.mem_cons.mp occurs).resolve_left ?_)⟩
      exact fun same => gone (same ▸ waiting)

/-- What is found when a name is taken off the queue was pending, so a walk that goes through it is
continued from the queue. -/
theorem mem_breadthFirst : x ∈ breadthFirst mentions pending queue ↔
    ∃ q ∈ queue, Through (fun a b => b ∈ mentions a) pending q x := by
  fun_induction breadthFirst mentions pending queue with
  | case1 => simp
  | case2 pending name queue found ih =>
    obtain ⟨foundSound, leftSound⟩ := @discover_sound pending (mentions name)
    rw [List.mem_cons, ih]
    constructor
    · rintro (rfl | ⟨q, listed, through⟩)
      · exact ⟨x, List.mem_cons_self, .refl⟩
      · have wide := through.mono leftSound
        rcases List.mem_append.mp listed with earlier | new
        · exact ⟨q, List.mem_cons_of_mem _ earlier, wide⟩
        · obtain ⟨waiting, mentioned⟩ := foundSound q new
          exact ⟨name, List.mem_cons_self, .head ⟨mentioned, waiting⟩ wide⟩
    · rintro ⟨q, listed, through⟩
      have parts : ∀ a ∈ pending, a ∈ found.1 ∨ a ∈ found.2 := fun a member =>
        (discover_complete member).1
      rcases through.avoid parts with direct | ⟨f, new, rest⟩
      · rcases List.mem_cons.mp listed with rfl | later
        · rcases direct.cases_head with same | ⟨b, ⟨stepped, left⟩, rest⟩
          · exact .inl same.symm
          · have new := (discover_complete (leftSound b left)).2 stepped
            exact .inr ⟨b, List.mem_append_right _ new, rest⟩
        · exact .inr ⟨q, List.mem_append_left _ later, direct⟩
      · exact .inr ⟨f, List.mem_append_right _ new, rest⟩

namespace Grammar

variable {g : Grammar} {start : Name} {reached : List Name}

theorem mem_mentions : x ∈ g.mentions n ↔
    ∃ rule ∈ g.rules, rule.head = n ∧ .nonTerminal x ∈ rule.body := by
  simp only [mentions, List.mem_flatMap, mem_rulesOf, List.mem_filterMap, Symbol.name?_eq_some,
    exists_eq_right, and_assoc]

theorem requireStart_eq_ok : g.requireStart = .ok start ↔
    g.start = some start ∧ (g.rules ≠ [] → start ∈ g.heads) := by
  unfold requireStart
  cases chosen : g.start with
  | none => simp
  | some s =>
    dsimp only
    by_cases nothing : g.rules ≠ [] ∧ g.rulesOf s = []
    · have missing : s ∉ g.heads := fun headed => rulesOf_ne_nil.mpr headed nothing.2
      rw [if_pos nothing]
      simp only [reduceCtorEq, Option.some.injEq, false_iff, not_and]
      rintro rfl headed
      exact missing (headed nothing.1)
    · rw [if_neg nothing]
      simp only [Except.ok.injEq, Option.some.injEq, iff_self_and]
      rintro rfl some_
      exact rulesOf_ne_nil.mp fun empty => nothing ⟨some_, empty⟩

/-- The names mentioned by some head are names of the rules, so the search has all of them. -/
theorem reachable_eq_ok (found : g.reachable = .ok reached) :
    g.hasShorthand = false ∧ ∃ start, g.requireStart = .ok start ∧
      ∀ n, n ∈ reached ↔ Relation.ReflTransGen (fun a b => b ∈ g.mentions a) start n := by
  unfold reachable at found
  cases plain : g.requirePlain with
  | error e => simp [plain, bind, Except.bind] at found
  | ok u =>
    cases started : g.requireStart with
    | error e => simp [plain, started, bind, Except.bind] at found
    | ok start =>
      refine ⟨requirePlain_eq_ok.mp plain, start, rfl, fun n => ?_⟩
      simp only [plain, started, bind, Except.bind, pure, Except.pure, Except.ok.injEq] at found
      have known : ∀ a b, b ∈ g.mentions a → b ∈ g.names.eraseDups := by
        intro a b mentioned
        obtain ⟨rule, member, _, occurs⟩ := mem_mentions.mp mentioned
        exact List.mem_eraseDups.mpr (mem_names_of_mem_body member occurs)
      rw [← found, mem_breadthFirst, ← through_erase_iff known]
      simp

theorem reachable_of_requireStart (plain : g.hasShorthand = false)
    (started : g.requireStart = .ok start) : ∃ reached, g.reachable = .ok reached := by
  simp [reachable, requirePlain_eq_ok.mpr plain, started, bind, Except.bind, pure, Except.pure]

/-- To be mentioned along the way from the start symbol is to occur in a sentence derived from
it. -/
theorem reaches_iff : g.Reaches start n ↔
    Relation.ReflTransGen (fun a b => b ∈ g.mentions a) start n := by
  constructor
  · rintro ⟨s, derives, occurs⟩
    induction derives generalizing n with
    | refl =>
      obtain rfl : n = start := by simpa using occurs
      exact .refl
    | tail _ step ih =>
      obtain ⟨rule, member, before, after, rfl, rfl⟩ := step
      simp only [List.mem_append] at occurs
      rcases occurs with (earlier | inside) | later
      · exact ih (List.mem_append_left _ earlier)
      · have head := ih (n := rule.head) (by simp)
        exact head.tail (mem_mentions.mpr ⟨rule, member, rfl, inside⟩)
      · exact ih (List.mem_append_right _ (List.mem_cons_of_mem _ later))
  · intro path
    induction path with
    | refl => exact ⟨[.nonTerminal start], .refl, List.mem_singleton_self _⟩
    | tail _ mentioned ih =>
      obtain ⟨s, derives, occurs⟩ := ih
      obtain ⟨rule, member, rfl, inside⟩ := mem_mentions.mp mentioned
      obtain ⟨before, after, rfl⟩ := List.append_of_mem occurs
      have step : g.Step _ (before ++ rule.body ++ after) :=
        ⟨rule, member, before, after, rfl, rfl⟩
      refine ⟨before ++ rule.body ++ after, derives.tail step, ?_⟩
      exact List.mem_append_left _ (List.mem_append_right _ inside)

end Grammar
end Ebnf
