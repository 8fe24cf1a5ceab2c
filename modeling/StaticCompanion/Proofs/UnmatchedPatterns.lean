import StaticCompanion.Proofs.Selection

/-!
# Patterns that match nothing

A pattern is either one that ends with a star or the name of a top-level class. What it matches is
told by the texts alone, without the walk. The walk may pass over entries on behalf of other
patterns, so that it leaves a pattern without an entry although there is one; the search behind it
makes up for that. So a selection fails just for the patterns that match no entry, and it lists all
of them.
-/
namespace StaticCompanion

namespace Pattern

/-- The entry is one that the pattern stands for: it starts as a pattern with a star does, or it is
the class file of the class that the pattern names or of a class nested in it. -/
inductive Matches : (pattern entry : String) → Prop
  | family {start rest : String} : Matches (start ++ "*") (start ++ rest)
  | itself {name : String} (hplain : ¬ ∃ start, name = start ++ "*") :
      Matches name (name ++ ".class")
  | nested {name rest : String} (hplain : ¬ ∃ start, name = start ++ "*") :
      Matches name (name ++ "$" ++ rest)

theorem ofText_star (start : String) : ofText (start ++ "*") = .family start := by
  have hlast : (start ++ "*").toList.getLast? = some '*' := by simp
  rw [ofText, if_pos hlast]
  simp

theorem ofText_plain {name : String} (hplain : ¬ ∃ start, name = start ++ "*") :
    ofText name = .topLevel name := by
  have hlast : ¬ name.toList.getLast? = some '*' := by
    intro hstar
    obtain ⟨front, hfront⟩ := List.getLast?_eq_some_iff.mp hstar
    exact hplain ⟨String.ofList front, String.toList_inj.mp (by simp [hfront])⟩
  rw [ofText, if_neg hlast]

theorem startsWith_iff_exists {text start : String} :
    startsWith text start = true ↔ ∃ rest, text = start ++ rest := by
  rw [startsWith_iff]
  constructor
  · rintro ⟨rest, hrest⟩
    exact ⟨String.ofList rest, String.toList_inj.mp (by simp [hrest])⟩
  · rintro ⟨rest, rfl⟩
    rw [String.toList_append]
    exact List.prefix_append _ _

theorem selects_topLevel_iff {name entry : String} : (topLevel name).selects entry = true ↔
    entry = name ++ ".class" ∨ ∃ rest, entry = name ++ "$" ++ rest := by
  rw [selects, Bool.or_eq_true, beq_iff_eq, startsWith_iff_exists]
  rfl

theorem matches_iff {pattern entry : String} :
    Matches pattern entry ↔ (ofText pattern).selects entry = true := by
  constructor
  · intro hmatches
    cases hmatches with
    | family =>
      rw [ofText_star]
      exact startsWith_iff_exists.mpr ⟨_, rfl⟩
    | itself hplain =>
      rw [ofText_plain hplain]
      exact selects_topLevel_iff.mpr (.inl rfl)
    | nested hplain =>
      rw [ofText_plain hplain]
      exact selects_topLevel_iff.mpr (.inr ⟨_, rfl⟩)
  · intro hselects
    by_cases hstar : ∃ start, pattern = start ++ "*"
    · obtain ⟨start, rfl⟩ := hstar
      rw [ofText_star] at hselects
      obtain ⟨rest, rfl⟩ := startsWith_iff_exists.mp hselects
      exact .family
    · rw [ofText_plain hstar] at hselects
      rcases selects_topLevel_iff.mp hselects with rfl | ⟨rest, rfl⟩
      · exact .itself hstar
      · exact .nested hstar

end Pattern

namespace Selection
variable {entries patterns : List String} {pattern : String}

/-- The patterns that are left after the search are those that match no entry at all. -/
theorem mem_idle_hits : pattern ∈ idle (sortNames patterns) (hits entries patterns) ↔
    pattern ∈ patterns ∧ ∀ entry ∈ entries, ¬ Pattern.Matches pattern entry := by
  rw [mem_idle, mem_sortNames]
  apply and_congr_right
  intro hpattern
  simp only [mem_hits, Pattern.matches_iff]
  have hhits : ¬ (∃ entry, Hits entries patterns entry pattern) ↔ _ :=
    not_congr (exists_hits_iff hpattern)
  simpa only [not_exists, not_and] using hhits

theorem pairwise_idle (hits : List (String × String)) :
    (idle (sortNames patterns) hits).Pairwise (· < ·) :=
  (pairwise_sortNames patterns).filter _

theorem selectEntries_eq_error {unmatched : List String} :
    selectEntries entries patterns = .error unmatched ↔
      unmatched ≠ [] ∧ unmatched = idle (sortNames patterns) (hits entries patterns) := by
  rw [selectEntries_eq]
  split
  · rename_i hnone
    simp [hnone]
  · rename_i hsome
    rw [Except.error.injEq]
    constructor
    · rintro rfl
      exact ⟨hsome, rfl⟩
    · rintro ⟨-, rfl⟩
      rfl

theorem exists_error_iff : (∃ unmatched, selectEntries entries patterns = .error unmatched) ↔
    ∃ pattern ∈ patterns, ∀ entry ∈ entries, ¬ Pattern.Matches pattern entry := by
  simp only [selectEntries_eq_error]
  constructor
  · rintro ⟨unmatched, hsome, rfl⟩
    obtain ⟨pattern, hpattern⟩ := List.exists_mem_of_ne_nil _ hsome
    exact ⟨pattern, mem_idle_hits.mp hpattern⟩
  · rintro ⟨pattern, hpattern⟩
    exact ⟨_, List.ne_nil_of_mem (mem_idle_hits.mpr hpattern), rfl⟩

end Selection

open Selection

/-- A selection fails exactly if some pattern matches no entry, and then it tells all patterns that
match none, in order and each of them once. If it succeeds, what is selected are entries that some
pattern matches, and every pattern matches one of them. -/
theorem selection_tellsUnmatched (entries patterns : List String) :
    ((∃ unmatched, selectEntries entries patterns = .error unmatched) ↔
      ∃ pattern ∈ patterns, ∀ entry ∈ entries, ¬ Pattern.Matches pattern entry) ∧
    (∀ unmatched, selectEntries entries patterns = .error unmatched →
      unmatched.Pairwise (· < ·) ∧
      ∀ pattern, pattern ∈ unmatched ↔
        pattern ∈ patterns ∧ ∀ entry ∈ entries, ¬ Pattern.Matches pattern entry) ∧
    ∀ selected, selectEntries entries patterns = .ok selected →
      (∀ entry ∈ selected,
        entry ∈ entries ∧ ∃ pattern ∈ patterns, Pattern.Matches pattern entry) ∧
      ∀ pattern ∈ patterns, ∃ entry ∈ selected, Pattern.Matches pattern entry := by
  refine ⟨exists_error_iff, fun unmatched herror => ?_, fun selected hok => ⟨?_, ?_⟩⟩
  · obtain ⟨-, rfl⟩ := selectEntries_eq_error.mp herror
    exact ⟨pairwise_idle _, fun pattern => mem_idle_hits⟩
  · obtain ⟨-, hselected⟩ := selectEntries_eq_ok.mp hok
    intro entry hentry
    obtain ⟨pattern, hhits⟩ := (hselected entry).mp hentry
    exact ⟨hhits.mem_entries, pattern, hhits.mem_patterns, Pattern.matches_iff.mpr hhits.selects⟩
  · obtain ⟨hmatched, hselected⟩ := selectEntries_eq_ok.mp hok
    intro pattern hpattern
    obtain ⟨entry, hhits⟩ := (exists_hits_iff hpattern).mpr (hmatched pattern hpattern)
    exact ⟨entry, (hselected entry).mpr ⟨pattern, hhits⟩, Pattern.matches_iff.mpr hhits.selects⟩

/-- Two of four patterns match nothing. The pattern for the class does, although the one for the
package takes its entry in the walk. -/
theorem selection_tellsUnmatched_of_overlapping :
    selectEntries ["a/A.class", "a/B.class"] ["z/*", "a/*", "a/None", "a/A", "z/*"] =
      .error ["a/None", "z/*"] ∧
    (∀ entry ∈ ["a/A.class", "a/B.class"], ¬ Pattern.Matches "a/None" entry) ∧
    ∃ selected, selectEntries ["a/A.class", "a/B.class"] ["a/*", "a/A"] = .ok selected ∧
      ∃ entry ∈ selected, Pattern.Matches "a/A" entry := by
  have hfails : (match selectEntries ["a/A.class", "a/B.class"]
      ["z/*", "a/*", "a/None", "a/A", "z/*"] with
        | .ok _ => none
        | .error unmatched => some unmatched) = some ["a/None", "z/*"] := by decide +kernel
  have herror : selectEntries ["a/A.class", "a/B.class"] ["z/*", "a/*", "a/None", "a/A", "z/*"] =
      .error ["a/None", "z/*"] := by
    split at hfails
    · cases hfails
    · rw [‹selectEntries _ _ = _›, Option.some.inj hfails]
  have hrun : (selectEntries ["a/A.class", "a/B.class"] ["a/*", "a/A"]).toOption.map (·.toList) =
      some ["a/A.class", "a/B.class"] := by decide +kernel
  obtain ⟨selected, hselected, -⟩ := exists_selected hrun
  obtain ⟨-, htells, -⟩ := selection_tellsUnmatched ["a/A.class", "a/B.class"]
    ["z/*", "a/*", "a/None", "a/A", "z/*"]
  obtain ⟨-, -, hmatches⟩ := selection_tellsUnmatched ["a/A.class", "a/B.class"] ["a/*", "a/A"]
  refine ⟨herror, ?_, selected, hselected, ?_⟩
  · exact (((htells _ herror).2 "a/None").mp (by simp)).2
  · exact (hmatches selected hselected).2 "a/A" (by simp)

end StaticCompanion
