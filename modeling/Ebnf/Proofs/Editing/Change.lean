import Ebnf.Pass.Augmentation
import Ebnf.Pass.LeftRecursion
import Ebnf.Pass.Removal
import Ebnf.Pass.SharedLeads
import Ebnf.Pass.Shorthand
import Ebnf.Pass.Units
import Ebnf.Proofs.Editing.Runs

/-! All that passes do to a grammar. Each of them goes by changes of a few kinds, and a change is
made as a whole together with its records, so what every change keeps is kept by every run. -/
namespace Ebnf

namespace Grammar

/-- The rules `A → A` of a head, which say nothing. -/
def loopsOf (g : Grammar) (head : Name) : List Rule :=
  (g.leftRecursiveRulesOf head).filter (·.rest = [])

/-- The alternatives of a head that take part in its direct left recursion. -/
def directRecursion (g : Grammar) (head : Name) : DirectRecursion :=
  ⟨g.baseRulesOf head, (g.leftRecursiveRulesOf head).filter (·.rest ≠ [])⟩

/-- The grammar with all rules of a head taken out, and others where the first of them was. -/
def withRulesOf (g : Grammar) (head : Name) (rules : List Rule) : Grammar :=
  (g.retain (· ≠ head)).insertAt (g.rules.findIdx (·.head = head)) rules

/-- The name that continues the alternatives of a head. It is looked for while the rules of the
head are out of the grammar. -/
def continuation (g : Grammar) (head : Name) : Name := (g.retain (· ≠ head)).fresh head

/-- What a rule that begins with `root` gives way to. -/
def substitution (g : Grammar) (root : Name) (rule : Rule) : List Rule :=
  ((g.rulesOf root).map fun alternative =>
    Rule.ofBody rule.head (Sentence.strip (alternative.body ++ rule.rest))).eraseDups

/-- The grammar with rules in the place of another. -/
def replaced (g : Grammar) (rule : Rule) (rules : List Rule) : Grammar :=
  { g with rules := replaceFirst rule rules g.rules }

/-- The grammar with the rules of a group factored. -/
def factored (g : Grammar) (group : LeadGroup) (fresh : Name) : Grammar :=
  { g with rules := (group.rules.tail.foldl List.erase
      (group.rules.head?.elim g.rules fun first =>
        replaceFirst first (group.replacements fresh) g.rules)) }

end Grammar

/-- The transformations that take out direct left recursion. -/
def Transformation.ofLeftRecursion : Transformation → Prop
  | .leftRecursion | .leftRecursionRound | .directLeftRecursion => True
  | _ => False

/-- The transformations that take rules out, or put others in the place of a unit rule, and bring in
no name. -/
def Transformation.Tidies : Transformation → Prop
  | .units | .duplicates | .unreachable => True
  | _ => False

theorem Transformation.Tidies.not_ofLeftRecursion {kind : Transformation} (tidies : kind.Tidies) :
    ¬ kind.ofLeftRecursion := by
  cases kind <;> first | exact id | exact tidies.elim

/-- `Change kind g events g'` says that `g` becomes `g'` by one change of a transformation, which
is told by the given events. -/
inductive Change : Transformation → Grammar → List Event → Grammar → Prop where
  | expansion {g rule expansion} (member : rule ∈ g.rules)
      (found : g.expansionOf? rule = some expansion) :
      Change .shorthand g
        [.minted expansion.fresh g,
          .remarked (.expanding expansion.shorthand rule expansion.fresh),
          .record .shorthand rule expansion.rules]
        (g.replaced rule expansion.rules)
  | unit {g rule target} (member : rule ∈ g.rules) (unit : rule.unit? = some target)
      (other : target ≠ rule.head) (lost : rule ∉ g.unitExpansion rule target)
      (defined : g.unitExpansion rule target ≠ []) :
      Change .units g [.record .units rule (g.unitExpansion rule target)]
        (g.replaced rule (g.unitExpansion rule target))
  | factoring {g} {group : LeadGroup} (shared : group ∈ g.leadGroupsOf group.head) :
      Change .sharedLeads g
        (.minted (g.fresh group.head) g :: group.rules.map (fun rule =>
            .record .sharedLeads rule [group.factored (g.fresh group.head),
              LeadGroup.suffix (g.fresh group.head) rule]) ++
          [.remarked (.factored group.lead group.rules.length group.head (g.fresh group.head))])
        (g.factored group (g.fresh group.head))
  | loops {kind g head} (kinds : kind.ofLeftRecursion) (based : g.baseRulesOf head ≠ [])
      (recursive : g.leftRecursiveRulesOf head ≠ [])
      (nothing : (g.directRecursion head).recursive = []) :
      Change kind g ((g.loopsOf head).map (.record kind · []))
        (g.withRulesOf head (g.baseRulesOf head))
  | direct {kind g head} (kinds : kind.ofLeftRecursion) (based : g.baseRulesOf head ≠ [])
      (recursive : (g.directRecursion head).recursive ≠ []) :
      Change kind g
        ((g.loopsOf head).map (.record kind · []) ++ .minted (g.continuation head) g ::
          ((g.directRecursion head).replacements (g.continuation head)).map
            (fun entry => .record kind entry.1 entry.2) ++
          [.remarked (.directRemoved head (g.continuation head))])
        (g.withRulesOf head ((g.directRecursion head).rules (g.continuation head)))
  | substitution {g root rule} (member : rule ∈ g.rules) (closes : rule.lead = .nonTerminal root)
      (indirect : rule.head ≠ root) (defined : g.rulesOf root ≠ []) :
      Change .leftRecursion g
        [.record .leftRecursion rule (g.substitution root rule),
          .remarked (.substituted root rule)]
        (g.replaced rule (g.substitution root rule))
  | removal {g reached} (found : g.reachable = .ok reached)
      (dead : g.dropped (· ∈ reached) ≠ []) :
      Change .unreachable g
        ((g.dropped (· ∈ reached)).map (.record .unreachable · []) ++
          [.remarked (.removed ((g.dropped (· ∈ reached)).map Rule.head).eraseDups)])
        (g.retain (· ∈ reached))
  | deduplication {g} (repeated : repeatedAfter [] g.rules ≠ []) :
      Change .duplicates g ((repeatedAfter [] g.rules).map (.record .duplicates · []))
        { g with rules := g.rules.eraseDups }
  | augmentation {g start rule others} (started : g.requireStart = .ok start)
      (rules : g.rulesOf start = rule :: others) (unaugmented : ¬(others = [] ∧ rule.isUnit)) :
      Change .augmentation g
        [.minted (g.fresh start) g,
          .record .augmentation rule [⟨g.fresh start, .nonTerminal start, []⟩, rule]]
        ⟨⟨g.fresh start, .nonTerminal start, []⟩ :: g.rules, some (g.fresh start)⟩

/-- `Path among g events g'` says that changes of the given transformations lead from `g` to `g'`,
told by the events, with remarks between them. -/
inductive Path (among : Transformation → Prop) : Grammar → List Event → Grammar → Prop where
  | refl (g) : Path among g [] g
  | remark {g events g'} (r : Remark) (rest : Path among g events g') :
      Path among g (.remarked r :: events) g'
  | next {kind g first middle rest g'} (kinds : among kind) (change : Change kind g first middle)
      (path : Path among middle rest g') : Path among g (first ++ rest) g'

namespace Path

variable {among wider : Transformation → Prop} {g middle g' : Grammar} {first rest : List Event}

theorem single {kind : Transformation} (kinds : among kind) (change : Change kind g first g') :
    Path among g first g' := by
  simpa using Path.next kinds change (.refl g')

theorem trans (left : Path among g first middle) (right : Path among middle rest g') :
    Path among g (first ++ rest) g' := by
  induction left with
  | refl => exact right
  | remark r _ ih => exact .remark r (ih right)
  | next kinds change _ ih => rw [List.append_assoc]; exact .next kinds change (ih right)

theorem mono (path : Path among g first g') (weaker : ∀ kind, among kind → wider kind) :
    Path wider g first g' := by
  induction path with
  | refl => exact .refl _
  | remark r _ ih => exact .remark r ih
  | next kinds change _ ih => exact .next (weaker _ kinds) change ih

/-- What each change keeps is kept along a path. -/
theorem invariant {I : Grammar → Prop} (path : Path among g first g')
    (keeps : ∀ {kind g es g'}, among kind → Change kind g es g' → I g → I g') (initial : I g) :
    I g' := by
  induction path with
  | refl => exact initial
  | remark _ _ ih => exact ih initial
  | next kinds change _ ih => exact ih (keeps kinds change initial)

end Path
end Ebnf
