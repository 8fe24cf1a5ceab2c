import Mathlib.Data.List.Lex
import Mathlib.Data.String.Basic
import StaticCompanion.Run.Pattern

/-!
# Names in the order of patterns

A pattern divides the sorted names into those that it selects, those in front of them and those
behind. The names behind are closed upwards: whatever comes after one of them is behind the pattern
too. The names in front are not closed in any way, since the names that a pattern selects need not
stand next to each other.
-/
namespace StaticCompanion

section Lists
variable {α : Type} [LinearOrder α] {front a b rest more : List α}

theorem prefix_of_between (hfront : ¬ a < front) (hlt : ¬ b < a) (hstarts : front <+: b) :
    front <+: a := by
  induction front generalizing a b with
  | nil => exact List.nil_prefix
  | cons x front ih =>
    obtain ⟨tail, rfl⟩ := hstarts
    cases a with
    | nil => exact absurd (List.nil_lt_cons _ _) hfront
    | cons y a =>
      rw [List.cons_lt_cons_iff, not_or, not_and] at hfront
      rw [List.cons_append, List.cons_lt_cons_iff, not_or, not_and] at hlt
      obtain rfl : x = y := le_antisymm (not_lt.mp hfront.1) (not_lt.mp hlt.1)
      have hrest := ih (hfront.2 rfl) (hlt.2 rfl) (List.prefix_append front tail)
      exact List.cons_prefix_cons.mpr ⟨rfl, hrest⟩

theorem lt_of_lt_append (hlt : a < front ++ rest) (hdiverge : ¬ front <+: a) : a < front := by
  by_contra hge
  exact hdiverge (prefix_of_between hge hlt.asymm (List.prefix_append front rest))

theorem lt_of_append_lt_append (hlt : front ++ a < front ++ b) : a < b := by
  rcases lt_trichotomy a b with hab | rfl | hba
  · exact hab
  · exact absurd hlt (lt_irrefl _)
  · exact absurd hlt (List.append_left_lt hba).asymm

theorem append_lt_append_of_diverge (hlt : front ++ rest < a) (hdiverge : ¬ front <+: a)
    (more tail : List α) : front ++ more < a ++ tail := by
  induction front generalizing a with
  | nil => exact absurd List.nil_prefix hdiverge
  | cons x front ih =>
    cases a with
    | nil => simp at hlt
    | cons y a =>
      simp only [List.cons_append, List.cons_lt_cons_iff] at hlt ⊢
      rcases hlt with hlt | ⟨rfl, hlt⟩
      · exact .inl hlt
      · have hdiverge' : ¬ front <+: a := fun h => hdiverge (List.cons_prefix_cons.mpr ⟨rfl, h⟩)
        exact .inr ⟨rfl, ih hlt hdiverge'⟩

end Lists

theorem startsWith_iff {text start : String} :
    startsWith text start = true ↔ start.toList <+: text.toList := by
  rw [startsWith, List.isPrefixOf_iff_prefix]

namespace Pattern
variable {pattern : Pattern} {entry later : String}

theorem place_eq_gt_iff : pattern.place entry = .gt ↔
    pattern.selects entry = false ∧ pattern.landmark < entry := by
  unfold place
  by_cases hselects : pattern.selects entry = true
  · simp [hselects]
  · rw [if_neg hselects, compare_gt_iff_gt]
    simp [hselects]

theorem place_eq_lt_iff : pattern.place entry = .lt ↔
    pattern.selects entry = false ∧ entry < pattern.landmark := by
  unfold place
  by_cases hselects : pattern.selects entry = true
  · simp [hselects]
  · rw [if_neg hselects, compare_lt_iff_lt]
    simp [hselects]

/-- Nested classes come before the class itself, since a dollar sign comes before a dot. -/
theorem lt_landmark_of_nested {name : String} (h : startsWith entry (name ++ "$") = true) :
    entry < name ++ classSuffix := by
  obtain ⟨rest, hrest⟩ := startsWith_iff.mp h
  rw [String.lt_iff_toList_lt, ← hrest, String.toList_append, String.toList_append,
    List.append_assoc]
  apply List.append_left_lt
  exact List.cons_lt_cons_iff.mpr (.inl (by decide))

theorem place_eq_gt_of_lt (h : pattern.place entry = .gt) (hlt : entry < later) :
    pattern.place later = .gt := by
  obtain ⟨hother, hbehind⟩ := place_eq_gt_iff.mp h
  have hbehind' := hbehind.trans hlt
  refine place_eq_gt_iff.mpr ⟨?_, hbehind'⟩
  by_contra hselects
  rw [Bool.not_eq_false] at hselects
  cases pattern with
  | topLevel name =>
    simp only [selects, Bool.or_eq_true, beq_iff_eq] at hselects
    rcases hselects with rfl | hnested
    · exact lt_irrefl _ hbehind'
    · exact hbehind'.asymm (lt_landmark_of_nested hnested)
  | family start =>
    rw [String.lt_iff_toList_lt] at hbehind hlt
    have hstarts := prefix_of_between hbehind.asymm hlt.asymm (startsWith_iff.mp hselects)
    have hselects' : (family start).selects entry = true := startsWith_iff.mpr hstarts
    rw [hother] at hselects'
    cases hselects'

/-- What the names of a pattern's own classes start with. -/
def stem : Pattern → String
  | topLevel name => name
  | family start => start

/-- What the text of a pattern has behind its stem. -/
def mark : Pattern → List Char
  | topLevel _ => []
  | family _ => ['*']

theorem toList_eq_stem_append_mark (text : String) :
    text.toList = (ofText text).stem.toList ++ (ofText text).mark := by
  unfold ofText
  split
  · rename_i hstar
    obtain ⟨front, hfront⟩ := List.getLast?_eq_some_iff.mp hstar
    simp [stem, mark, hfront]
  · simp [stem, mark]

theorem startsWith_stem (h : pattern.selects entry = true) :
    startsWith entry pattern.stem = true := by
  cases pattern with
  | topLevel name =>
    simp only [selects, Bool.or_eq_true, beq_iff_eq, startsWith_iff] at h ⊢
    rcases h with rfl | hnested
    · simp [stem]
    · rw [String.toList_append] at hnested
      exact (List.prefix_append _ _).trans hnested
  | family start => exact h

theorem lt_stem (h : pattern.place entry = .lt) (hother : ¬ startsWith entry pattern.stem = true) :
    entry.toList < pattern.stem.toList := by
  have hlt := String.lt_iff_toList_lt.mp (place_eq_lt_iff.mp h).2
  rw [startsWith_iff] at hother
  cases pattern with
  | topLevel name =>
    rw [landmark, String.toList_append] at hlt
    exact lt_of_lt_append hlt hother
  | family start => exact hlt

/-- A name that a later pattern selects does not come before a pattern that it does not start like,
unless this one has characters before the star. -/
theorem place_ne_lt {text later : String} (hlater : text < later)
    (hselects : (ofText later).selects entry = true)
    (hchars : ∀ char ∈ text.toList, '*' ≤ char)
    (hother : ¬ startsWith entry (ofText text).stem = true) : (ofText text).place entry ≠ .lt := by
  intro hplace
  have hlt := lt_stem hplace hother
  obtain ⟨rest, hrest⟩ := startsWith_iff.mp (startsWith_stem hselects)
  rw [String.lt_iff_toList_lt, toList_eq_stem_append_mark text,
    toList_eq_stem_append_mark later] at hlater
  rw [toList_eq_stem_append_mark text] at hchars
  rw [startsWith_iff, ← hrest] at hother
  rw [← hrest] at hlt
  by_cases hstarts : (ofText later).stem.toList <+: (ofText text).stem.toList
  · obtain ⟨more, hmore⟩ := hstarts
    rw [← hmore] at hlater hchars hother
    rw [List.append_assoc] at hlater
    have hmark := lt_of_append_lt_append hlater
    -- only the star can follow the stem of the later pattern, and only what is less is before it
    cases hkind : ofText later with
    | topLevel name =>
      rw [hkind] at hmark
      exact absurd hmark (List.not_lt_nil _)
    | family start =>
      rw [hkind] at hmark
      cases more with
      | nil => exact hother (by simp)
      | cons char more =>
        have hchar := hchars char (by simp)
        rw [mark, List.cons_append, List.cons_lt_cons_iff] at hmark
        rcases hmark with hbefore | ⟨-, hnil⟩
        · exact absurd hbefore (not_lt.mpr hchar)
        · exact absurd hnil (List.not_lt_nil _)
  · exact hlater.asymm (append_lt_append_of_diverge hlt hstarts _ _)

end Pattern

end StaticCompanion
