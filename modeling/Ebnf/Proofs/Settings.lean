import Mathlib
import Ebnf.Proofs.Results
import Ebnf.Settings

/-! Settings read from a document. Reading goes over the settings entry by entry and sets what the
document has under a known name; only then is it checked what stands under all known names. So
settings that are accepted hold counts, and those that are refused for a value hold that value all
the same, along with any others that came with it. -/
namespace Ebnf

/-- The entries that a source is read as, if it is a table. An empty document is an empty table. -/
def Source.table? : Source → Option (List (Key × Document))
  | .document .null => some []
  | .document (.table entries) => some entries
  | _ => none

namespace Settings

variable {s : Settings} {source : Source} {key : String} {entries : List (Key × Document)}

/-- Under every known name there is a count. -/
def Counted (s : Settings) : Prop := ∀ key ∈ known, ∃ n : Int, 0 < n ∧ s.get? key = some (.int n)

/-- What a table has under a name. Of several entries the last one holds. -/
def given (entries : List (Key × Document)) (key : String) : Option Document :=
  Document.get? entries.reverse key

/-! What the check accepts. -/

theorem isCount_iff {d : Document} : isCount d = true ↔ ∃ n : Int, d = .int n ∧ 0 < n := by
  cases d <;> simp [isCount]

theorem check_eq_ok :
    s.check = .ok () ↔ ∀ key ∈ known, isCount ((s.get? key).getD .null) = true := by
  rw [check, forM_eq_ok]
  simp

theorem check_eq_ok_iff_counted : s.check = .ok () ↔ s.Counted := by
  rw [check_eq_ok]
  refine forall₂_congr fun key _ => ?_
  cases s.get? key <;> simp [isCount_iff, and_comm]

theorem exists_of_check_eq_error {problem : SettingsProblem} (refused : s.check = .error problem) :
    ∃ key ∈ known, isCount ((s.get? key).getD .null) = false ∧
      problem = .notPositive key ((s.get? key).getD .null) := by
  obtain ⟨key, listed, failed⟩ := exists_of_forM_eq_error refused
  refine ⟨key, listed, ?_⟩
  cases counts : isCount ((s.get? key).getD .null) with
  | true => simp [counts] at failed
  | false =>
    simp only [counts, Bool.false_eq_true, if_false, Except.error.injEq] at failed
    exact ⟨rfl, failed.symm⟩

theorem exists_counts (accepted : s.check = .ok ()) : ∃ i j, s.limits = .ofCounts i j := by
  have counted := check_eq_ok_iff_counted.mp accepted
  obtain ⟨i, _, iterations⟩ := counted iterationsKey (by decide)
  obtain ⟨j, _, growth⟩ := counted growthKey (by decide)
  exact ⟨i, j, by rw [limits, iterations, growth]; rfl⟩

theorem check_defaults : defaults.check = .ok () := by cbv

/-- What is accepted over settings that pass the check passes it. -/
theorem check_of_read (before : s.check = .ok ()) (accepted : (s.read source).outcome = .ok ()) :
    (s.read source).settings.check = .ok () := by
  unfold read at accepted ⊢
  split at accepted
  · cases accepted
  · exact before
  · exact accepted
  · cases accepted

/-! Setting a value, taking over an entry, and taking over all of them. -/

theorem get?_set (s : Settings) (key : String) (value : Document) (other : String) :
    (s.set key value).get? other = if key = other then some value else s.get? other := by
  obtain ⟨entries⟩ := s
  simp only [get?, set]
  induction entries with
  | nil => by_cases same : key = other <;> simp [setEntry, same]
  | cons entry rest ih =>
    by_cases here : entry.1 = key
    · by_cases same : key = other <;> simp [setEntry, here, same]
    · by_cases found : entry.1 = other
      · have apart : key ≠ other := fun same => here (found.trans same.symm)
        simp [setEntry, found, apart, apart.symm]
      · simpa [setEntry, here, found] using ih

theorem names_set (s : Settings) (value : Document) (there : s.get? key ≠ none) :
    (s.set key value).entries.map Prod.fst = s.entries.map Prod.fst := by
  obtain ⟨entries⟩ := s
  simp only [get?, set] at there ⊢
  induction entries with
  | nil => exact absurd rfl there
  | cons entry rest ih =>
    by_cases here : entry.1 = key
    · simp [setEntry, here]
    · rw [List.find?_cons_of_neg (by simpa using here)] at there
      rw [setEntry, if_neg here, List.map_cons, List.map_cons, ih there]

theorem get?_take (s : Settings) (entry : Key × Document) (key : String) :
    (s.take entry).get? key =
      if key ∈ known ∧ entry.1 = .text key then some entry.2 else s.get? key := by
  obtain ⟨found, value⟩ := entry
  cases found with
  | text other =>
    by_cases listed : other ∈ known
    · by_cases same : other = key
      · simp [take, get?_set, same, same ▸ listed]
      · simp [take, get?_set, listed, same]
    · have apart : key ∈ known → ¬ other = key := fun inside same => listed (same ▸ inside)
      simpa [take, listed] using fun inside same => absurd same (apart inside)
  | _ => simp [take]

theorem given_cons (entry : Key × Document) (entries : List (Key × Document)) (key : String) :
    given (entry :: entries) key =
      (given entries key).or (if entry.1 = .text key then some entry.2 else none) := by
  by_cases same : entry.1 = .text key <;>
    simp [given, Document.get?, List.find?_append, same]

/-- After all entries, the last one under each known name has been taken over. -/
theorem get?_foldl_take (s : Settings) (entries : List (Key × Document)) (key : String) :
    (entries.foldl take s).get? key =
      if key ∈ known then (given entries key).or (s.get? key) else s.get? key := by
  induction entries generalizing s with
  | nil => simp [given, Document.get?]
  | cons entry entries ih =>
    rw [List.foldl_cons, ih, get?_take, given_cons]
    by_cases listed : key ∈ known
    · by_cases same : entry.1 = .text key <;> simp [listed, same]
    · simp [listed]

/-- Where all known names are there, taking over entries brings in no name and loses none. -/
theorem names_foldl_take (complete : ∀ key ∈ known, s.get? key ≠ none)
    (entries : List (Key × Document)) :
    (entries.foldl take s).entries.map Prod.fst = s.entries.map Prod.fst := by
  induction entries generalizing s with
  | nil => rfl
  | cons entry entries ih =>
    have kept : ∀ key ∈ known, (s.take entry).get? key ≠ none := by
      intro key listed
      rw [get?_take]
      split
      · exact Option.some_ne_none _
      · exact complete key listed
    rw [List.foldl_cons, ih kept]
    unfold take
    split
    · split
      · next listed => exact names_set s entry.2 (complete _ listed)
      · rfl
    · rfl

theorem Counted.complete (counted : s.Counted) : ∀ key ∈ known, s.get? key ≠ none := by
  intro key listed
  obtain ⟨n, _, there⟩ := counted key listed
  simp [there]

/-- A table is taken over whole before it is checked. -/
theorem read_table (counted : s.Counted) (table : source.table? = some entries) :
    (s.read source).settings = entries.foldl take s ∧
      (s.read source).outcome = (entries.foldl take s).check := by
  unfold Source.table? at table
  split at table
  · cases table
    exact ⟨rfl, (check_eq_ok_iff_counted.mpr counted).symm⟩
  · cases table
    exact ⟨rfl, rfl⟩
  · cases table

/-- What is refused after a table was taken over came from the table. -/
theorem exists_given_of_refused {problem : SettingsProblem} (counted : s.Counted)
    (refused : (entries.foldl take s).check = .error problem) :
    ∃ key ∈ known, ∃ value, problem = .notPositive key value ∧ given entries key = some value ∧
      isCount value = false ∧ (entries.foldl take s).get? key = some value := by
  obtain ⟨key, listed, bad, rfl⟩ := exists_of_check_eq_error refused
  obtain ⟨n, positive, before⟩ := counted key listed
  have after := get?_foldl_take s entries key
  rw [if_pos listed, before] at after
  refine ⟨key, listed, _, rfl, ?_⟩
  cases found : given entries key with
  | none =>
    rw [found, Option.none_or] at after
    simp [after, isCount, positive] at bad
  | some value =>
    rw [found, Option.some_or] at after
    rw [after, Option.getD_some] at bad ⊢
    exact ⟨rfl, bad, rfl⟩

/-- A table of settings under whose known names there are counts, and whatever it is read over: a
text that is no document and a document that is no table are refused and change nothing. The entries
of a table are taken over where their names are known, and nothing else changes. Then either there
are counts again, and they are accepted, or they are refused for a value of the table, which stands
in the settings now. -/
theorem read_exact (s : Settings) (counted : s.Counted) (source : Source) :
    let r := s.read source
    (source.table? = none → r.settings = s ∧ ∃ problem, r.outcome = .error problem) ∧
    ∀ entries, source.table? = some entries →
      r.settings.entries.map Prod.fst = s.entries.map Prod.fst ∧
      (∀ key, r.settings.get? key =
        if key ∈ known then (given entries key).or (s.get? key) else s.get? key) ∧
      (r.outcome = .ok () ∧ r.settings.Counted ∨
        ∃ key ∈ known, ∃ value, r.outcome = .error (.notPositive key value) ∧
          given entries key = some value ∧ isCount value = false ∧
          r.settings.get? key = some value ∧ r.settings ≠ s) := by
  intro r
  refine ⟨fun none => ?_, fun entries table => ?_⟩
  · simp only [r, read]
    split
    · exact ⟨rfl, _, rfl⟩
    · cases none
    · cases none
    · exact ⟨rfl, _, rfl⟩
  · obtain ⟨taken, checked⟩ := read_table counted table
    simp only [r, taken, checked]
    refine ⟨names_foldl_take counted.complete entries, get?_foldl_take s entries, ?_⟩
    cases outcome : (entries.foldl take s).check with
    | ok => exact .inl ⟨rfl, check_eq_ok_iff_counted.mp outcome⟩
    | error problem =>
      obtain ⟨key, listed, value, rfl, found, bad, stands⟩ :=
        exists_given_of_refused counted outcome
      refine .inr ⟨key, listed, value, rfl, found, bad, stands, fun same => ?_⟩
      obtain ⟨n, positive, before⟩ := counted key listed
      rw [same, before] at stands
      cases stands
      simp [isCount, positive] at bad

theorem counted_defaults : defaults.Counted := check_eq_ok_iff_counted.mp check_defaults

/-- The document is refused for its number of rounds, and both of its values stand in the
settings. -/
theorem defaults_overruled :
    let r := defaults.read (.document (.table [
      (.text "max_growth", .int 4), (.text "max_iterations", .text "many")]))
    defaults.Counted ∧ r.outcome = .error (.notPositive "max_iterations" (.text "many")) ∧
      r.settings ≠ defaults ∧
      r.settings.entries = [("max_iterations", .text "many"), ("max_growth", .int 4)] := by
  intro r
  have left : r.settings.entries = [("max_iterations", .text "many"), ("max_growth", .int 4)] := by
    cbv
  refine ⟨counted_defaults, by cbv, fun same => ?_, left⟩
  rw [same] at left
  simp [defaults, iterationsKey] at left

/-- Settings with a value of another kind beside the limits. -/
def tinted : Settings :=
  ⟨[("colour", .text "blue"), ("max_iterations", .int 7), ("max_growth", .int 3)]⟩

/-- A document with an unknown name, a count, and a truth value in the place of another. -/
def shaded : List (Key × Document) :=
  [(.text "shade", .int 1), (.text "max_growth", .int 4), (.text "max_iterations", .bool true)]

/-- The colour is kept and the shade does not enter. The growth is taken over although the document
is refused for its truth value, which stands in the settings too. -/
theorem tinted_shaded :
    let r := tinted.read (.document (.table shaded))
    tinted.Counted ∧ r.outcome = .error (.notPositive "max_iterations" (.bool true)) ∧
      r.settings.entries.map Prod.fst = ["colour", "max_iterations", "max_growth"] ∧
      r.settings.get? "colour" = some (.text "blue") ∧
      r.settings.get? "max_iterations" = some (.bool true) ∧
      r.settings.get? "max_growth" = some (.int 4) := by
  intro r
  have counted : tinted.Counted := check_eq_ok_iff_counted.mp (by cbv)
  have refused : r.outcome = .error (.notPositive "max_iterations" (.bool true)) := by cbv
  obtain ⟨names, values, _⟩ := (tinted.read_exact counted (.document (.table shaded))).2 shaded rfl
  refine ⟨counted, refused, names, ?_, ?_, ?_⟩
  · exact (values "colour").trans (by cbv)
  · exact (values "max_iterations").trans (by cbv)
  · exact (values "max_growth").trans (by cbv)

end Settings

end Ebnf
