import Mathlib.Data.Finset.Dedup
import Mathlib.Data.Finset.Max
import StaticCompanion.Proofs.Patterns
import StaticCompanion.Proofs.Steps

/-!
# Which entries are selected

The walk along sorted names and sorted patterns holds a name against the patterns in turn and stops
at the first one that the name is not behind. Names that come later are behind all patterns that
an earlier name is behind, so this pattern is the same whichever other names there are: it decides
about the name. The walk takes a name if the pattern that decides about it selects it. All else
that is selected is found by the patterns that take no name at all. So a selection depends only on
which names and patterns there are, and selecting again changes nothing, but a name is missed if
the pattern that decides about it stands in front of the ones that would select it.
-/
namespace StaticCompanion

namespace Selection
variable {entries patterns : List String} {entry pattern : String}

/-- The pattern decides about the name: it is the first one that the name is not behind. -/
structure Decides (patterns : List String) (pattern entry : String) : Prop where
  mem : pattern ∈ patterns
  notBehind : (Pattern.ofText pattern).place entry ≠ .gt
  behind : ∀ other ∈ patterns, other < pattern → (Pattern.ofText other).place entry = .gt

/-- The walk gives the name to the pattern. -/
structure Takes (patterns : List String) (pattern entry : String) : Prop where
  decides : Decides patterns pattern entry
  selects : (Pattern.ofText pattern).selects entry = true

theorem decides_head {rest : List String} (hsorted : ∀ other ∈ rest, pattern < other)
    (hplace : (Pattern.ofText pattern).place entry ≠ .gt) {decider : String} :
    Decides (pattern :: rest) decider entry ↔ decider = pattern := by
  constructor
  · intro h
    rcases List.mem_cons.mp h.mem with hsame | hmem
    · exact hsame
    · exact absurd (h.behind pattern List.mem_cons_self (hsorted decider hmem)) hplace
  · rintro rfl
    refine ⟨List.mem_cons_self, hplace, fun other hmem hlt => ?_⟩
    rcases List.mem_cons.mp hmem with rfl | hmem
    · exact absurd hlt (lt_irrefl _)
    · exact absurd hlt (hsorted other hmem).asymm

theorem decides_tail {rest : List String} (hsorted : ∀ other ∈ rest, pattern < other)
    (hplace : (Pattern.ofText pattern).place entry = .gt) {decider : String} :
    Decides (pattern :: rest) decider entry ↔ Decides rest decider entry := by
  constructor
  · rintro ⟨hmem, hnot, hbehind⟩
    rcases List.mem_cons.mp hmem with rfl | hmem
    · exact absurd hplace hnot
    · exact ⟨hmem, hnot, fun other hother => hbehind other (List.mem_cons_of_mem _ hother)⟩
  · rintro ⟨hmem, hnot, hbehind⟩
    refine ⟨List.mem_cons_of_mem _ hmem, hnot, fun other hother hlt => ?_⟩
    rcases List.mem_cons.mp hother with rfl | hother
    · exact hplace
    · exact hbehind other hother hlt

theorem Decides.congr {patterns' : List String} (hsame : ∀ p, p ∈ patterns ↔ p ∈ patterns') :
    Decides patterns pattern entry ↔ Decides patterns' pattern entry := by
  constructor
  · rintro ⟨hmem, hnot, hbehind⟩
    exact ⟨(hsame _).mp hmem, hnot, fun other hother => hbehind other ((hsame _).mpr hother)⟩
  · rintro ⟨hmem, hnot, hbehind⟩
    exact ⟨(hsame _).mpr hmem, hnot, fun other hother => hbehind other ((hsame _).mp hother)⟩

theorem Takes.congr {patterns' : List String} (hsame : ∀ p, p ∈ patterns ↔ p ∈ patterns') :
    Takes patterns pattern entry ↔ Takes patterns' pattern entry := by
  constructor
  · rintro ⟨hdecides, hselects⟩
    exact ⟨(Decides.congr hsame).mp hdecides, hselects⟩
  · rintro ⟨hdecides, hselects⟩
    exact ⟨(Decides.congr hsame).mpr hdecides, hselects⟩

theorem Decides.unique {decider : String} (h : Decides patterns pattern entry)
    (h' : Decides patterns decider entry) : pattern = decider := by
  rcases lt_trichotomy pattern decider with hlt | hsame | hlt
  · exact absurd (h'.behind pattern h.mem hlt) h.notBehind
  · exact hsame
  · exact absurd (h.behind decider h'.mem hlt) h'.notBehind

theorem exists_decides (hmem : pattern ∈ patterns)
    (hselects : (Pattern.ofText pattern).selects entry = true) :
    ∃ decider, Decides patterns decider entry := by
  let candidates := patterns.filter fun other => (Pattern.ofText other).place entry != .gt
  have hplace : (Pattern.ofText pattern).place entry = .eq :=
    Pattern.place_eq_eq_iff.mpr hselects
  have hcandidate : pattern ∈ candidates := List.mem_filter.mpr ⟨hmem, by simp [hplace]⟩
  have hne : candidates.toFinset.Nonempty := ⟨pattern, List.mem_toFinset.mpr hcandidate⟩
  have hfirst := List.mem_filter.mp (List.mem_toFinset.mp (candidates.toFinset.min'_mem hne))
  refine ⟨candidates.toFinset.min' hne, hfirst.1, by simpa using hfirst.2, ?_⟩
  intro other hother hlt
  by_contra hnot
  have hother' : other ∈ candidates := List.mem_filter.mpr ⟨hother, by simpa using hnot⟩
  exact hlt.not_ge (Finset.min'_le _ _ (List.mem_toFinset.mpr hother'))

/-- What the walk gives, independent of the way that it takes along the names. -/
theorem mem_walk (hentries : entries.Pairwise (· < ·)) (hpatterns : patterns.Pairwise (· < ·)) :
    (entry, pattern) ∈ walk entries patterns ↔ entry ∈ entries ∧ Takes patterns pattern entry := by
  fun_induction walk entries patterns with
  | case1 first entries pattern' patterns hplace ih =>
    obtain ⟨-, hentries'⟩ := List.pairwise_cons.mp hentries
    have hnot : (Pattern.ofText pattern').place first ≠ .gt := by simp [hplace]
    have hhead (decider : String) : Decides (pattern' :: patterns) decider first ↔ _ :=
      decides_head (List.pairwise_cons.mp hpatterns).1 hnot
    rw [List.mem_cons, ih hentries' hpatterns, List.mem_cons, Prod.mk.injEq]
    constructor
    · rintro (⟨rfl, rfl⟩ | ⟨hmem, htakes⟩)
      · exact ⟨.inl rfl, (hhead _).mpr rfl, Pattern.place_eq_eq_iff.mp hplace⟩
      · exact ⟨.inr hmem, htakes⟩
    · rintro ⟨rfl | hmem, htakes⟩
      · exact .inl ⟨rfl, (hhead _).mp htakes.decides⟩
      · exact .inr ⟨hmem, htakes⟩
  | case2 first entries pattern' patterns hplace ih =>
    obtain ⟨-, hentries'⟩ := List.pairwise_cons.mp hentries
    have hnot : (Pattern.ofText pattern').place first ≠ .gt := by simp [hplace]
    have hhead (decider : String) : Decides (pattern' :: patterns) decider first ↔ _ :=
      decides_head (List.pairwise_cons.mp hpatterns).1 hnot
    rw [ih hentries' hpatterns, List.mem_cons]
    constructor
    · rintro ⟨hmem, htakes⟩
      exact ⟨.inr hmem, htakes⟩
    · rintro ⟨rfl | hmem, htakes⟩
      · obtain rfl := (hhead _).mp htakes.decides
        have hother := (Pattern.place_eq_lt_iff.mp hplace).1
        rw [htakes.selects] at hother
        cases hother
      · exact ⟨hmem, htakes⟩
  | case3 first entries pattern' patterns hplace ih =>
    obtain ⟨hfirst, hpatterns'⟩ := List.pairwise_cons.mp hpatterns
    rw [ih hentries hpatterns']
    -- all names from here on are behind the pattern that is passed over
    have hbehind (hmem : entry ∈ first :: entries) :
        (Pattern.ofText pattern').place entry = .gt := by
      rcases List.mem_cons.mp hmem with rfl | hmem
      · exact hplace
      · exact Pattern.place_eq_gt_of_lt hplace ((List.pairwise_cons.mp hentries).1 entry hmem)
    constructor
    · rintro ⟨hmem, htakes⟩
      exact ⟨hmem, (decides_tail hfirst (hbehind hmem)).mpr htakes.decides, htakes.selects⟩
    · rintro ⟨hmem, htakes⟩
      exact ⟨hmem, (decides_tail hfirst (hbehind hmem)).mp htakes.decides, htakes.selects⟩
  | case4 entries patterns hends =>
    cases entries with
    | nil => simp
    | cons first entries =>
      cases patterns with
      | nil =>
        simp only [List.not_mem_nil, false_iff]
        rintro ⟨-, htakes⟩
        exact absurd htakes.decides.mem List.not_mem_nil
      | cons pattern' patterns => exact (hends _ _ _ _ rfl rfl).elim

/-- The walk gives no name to the pattern. -/
def Idle (entries patterns : List String) (pattern : String) : Prop :=
  ∀ entry ∈ entries, ¬ Takes patterns pattern entry

/-- The pattern is one that the entry is selected for: the walk gives the entry to it, or it selects
the entry in the search after the walk. -/
structure Hits (entries patterns : List String) (entry pattern : String) : Prop where
  mem_entries : entry ∈ entries
  mem_patterns : pattern ∈ patterns
  selects : (Pattern.ofText pattern).selects entry = true
  found : Takes patterns pattern entry ∨ Idle entries patterns pattern

theorem pairwise_sortNames (names : List String) : (sortNames names).Pairwise (· < ·) := by
  have hordered := Std.ExtTreeSet.ordered_toList (t := .ofList names)
  exact hordered.imp fun h => compare_lt_iff_lt.mp h

/-- The names that are selected, each with the patterns that it is selected for. -/
def hits (entries patterns : List String) : List (String × String) :=
  let walked := walk (sortNames entries) (sortNames patterns)
  walked ++ search (sortNames entries) (idle (sortNames patterns) walked)

theorem mem_walk_sortNames : (entry, pattern) ∈ walk (sortNames entries) (sortNames patterns) ↔
    entry ∈ entries ∧ Takes patterns pattern entry := by
  rw [mem_walk (pairwise_sortNames entries) (pairwise_sortNames patterns), mem_sortNames,
    Takes.congr fun _ => mem_sortNames]

theorem mem_hits :
    (entry, pattern) ∈ hits entries patterns ↔ Hits entries patterns entry pattern := by
  simp only [hits, List.mem_append, mem_search, mem_idle, mem_sortNames, mem_walk_sortNames]
  constructor
  · rintro (⟨hmem, htakes⟩ | ⟨hmem, ⟨hpattern, hidle⟩, hselects⟩)
    · exact ⟨hmem, htakes.decides.mem, htakes.selects, .inl htakes⟩
    · exact ⟨hmem, hpattern, hselects, .inr fun other hother htakes => hidle other ⟨hother, htakes⟩⟩
  · rintro ⟨hmem, hpattern, hselects, htakes | hidle⟩
    · exact .inl ⟨hmem, htakes⟩
    · exact .inr ⟨hmem, ⟨hpattern, fun other h => hidle other h.1 h.2⟩, hselects⟩

/-- A pattern that selects something is one that some name is selected for. -/
theorem exists_hits_iff (hpattern : pattern ∈ patterns) :
    (∃ entry, Hits entries patterns entry pattern) ↔
      ∃ entry ∈ entries, (Pattern.ofText pattern).selects entry = true := by
  constructor
  · rintro ⟨entry, hhits⟩
    exact ⟨entry, hhits.mem_entries, hhits.selects⟩
  · rintro ⟨entry, hmem, hselects⟩
    by_cases hidle : Idle entries patterns pattern
    · exact ⟨entry, hmem, hpattern, hselects, .inr hidle⟩
    · simp only [Idle, not_forall, not_not] at hidle
      obtain ⟨other, hother, htakes⟩ := hidle
      exact ⟨other, hother, hpattern, htakes.selects, .inl htakes⟩

/-- A name that some pattern selects is selected for none if it is in front of the pattern that
decides about it and the patterns that select it are busy with other names. -/
theorem not_exists_hits_iff (hentry : entry ∈ entries)
    (hmatched : ∃ pattern ∈ patterns, (Pattern.ofText pattern).selects entry = true) :
    (¬ ∃ pattern, Hits entries patterns entry pattern) ↔
      (∃ pattern, Decides patterns pattern entry ∧ (Pattern.ofText pattern).place entry = .lt) ∧
      ∀ pattern ∈ patterns, (Pattern.ofText pattern).selects entry = true →
        ∃ other ∈ entries, Takes patterns pattern other := by
  constructor
  · intro hmissed
    refine ⟨?_, fun pattern hpattern hselects => ?_⟩
    · obtain ⟨pattern, hpattern, hselects⟩ := hmatched
      obtain ⟨decider, hdecides⟩ := exists_decides hpattern hselects
      refine ⟨decider, hdecides, ?_⟩
      cases hplace : (Pattern.ofText decider).place entry with
      | lt => rfl
      | eq =>
        have hselects' := Pattern.place_eq_eq_iff.mp hplace
        exact absurd ⟨decider, hentry, hdecides.mem, hselects', .inl ⟨hdecides, hselects'⟩⟩ hmissed
      | gt => exact absurd hplace hdecides.notBehind
    · by_contra hidle
      simp only [not_exists, not_and] at hidle
      exact hmissed ⟨pattern, hentry, hpattern, hselects, .inr hidle⟩
  · rintro ⟨⟨decider, hdecides, hplace⟩, hbusy⟩ ⟨pattern, hhits⟩
    rcases hhits.found with htakes | hidle
    · obtain rfl := hdecides.unique htakes.decides
      rw [Pattern.place_eq_eq_iff.mpr htakes.selects] at hplace
      cases hplace
    · obtain ⟨other, hother, htakes⟩ := hbusy pattern hhits.mem_patterns hhits.selects
      exact hidle other hother htakes

theorem idle_hits_eq_nil_iff : idle (sortNames patterns) (hits entries patterns) = [] ↔
    ∀ pattern ∈ patterns, ∃ entry ∈ entries, (Pattern.ofText pattern).selects entry = true := by
  simp only [List.eq_nil_iff_forall_not_mem, mem_idle, mem_sortNames, mem_hits, not_and,
    not_forall, not_not]
  constructor
  · intro h pattern hpattern
    exact (exists_hits_iff hpattern).mp (h pattern hpattern)
  · intro h pattern hpattern
    exact (exists_hits_iff hpattern).mpr (h pattern hpattern)

end Selection

open Selection

theorem selectEntries_eq (entries patterns : List String) : selectEntries entries patterns =
    if idle (sortNames patterns) (hits entries patterns) = [] then
      .ok (Std.ExtTreeSet.ofList ((hits entries patterns).map Prod.fst))
    else .error (idle (sortNames patterns) (hits entries patterns)) := by
  cases hidle : idle (sortNames patterns) (hits entries patterns) with
  | nil =>
    rw [hits] at hidle
    simp only [selectEntries, hidle, hits, if_true]
  | cons pattern rest =>
    rw [hits] at hidle
    simp only [selectEntries, hidle, reduceCtorEq, if_false]

theorem selectEntries_eq_ok {entries patterns : List String} {selected : NameSet} :
    selectEntries entries patterns = .ok selected ↔
      (∀ pattern ∈ patterns, ∃ entry ∈ entries, (Pattern.ofText pattern).selects entry = true) ∧
        ∀ entry, entry ∈ selected ↔ ∃ pattern, Hits entries patterns entry pattern := by
  have hmem (entry : String) :
      entry ∈ Std.ExtTreeSet.ofList ((hits entries patterns).map Prod.fst) ↔
        ∃ pattern, Hits entries patterns entry pattern := by
    simp [← mem_hits]
  rw [← idle_hits_eq_nil_iff, selectEntries_eq]
  split
  · rename_i hidle
    simp only [hidle, true_and, Except.ok.injEq]
    constructor
    · rintro rfl entry
      exact hmem entry
    · intro hselected
      exact Std.ExtTreeSet.ext_mem fun entry => (hmem entry).trans (hselected entry).symm
  · rename_i hidle
    simp only [reduceCtorEq, hidle, false_and]

theorem sortNames_congr {names names' : List String} (h : ∀ name, name ∈ names ↔ name ∈ names') :
    sortNames names = sortNames names' := by
  have hset : (Std.ExtTreeSet.ofList names : NameSet) = Std.ExtTreeSet.ofList names' :=
    Std.ExtTreeSet.ext_mem fun name => by simp [h]
  rw [sortNames, sortNames, hset]

/-- Selection sees only which names and which patterns there are, not their order or number. -/
theorem selectEntries_congr {entries entries' patterns patterns' : List String}
    (hentries : ∀ entry, entry ∈ entries ↔ entry ∈ entries')
    (hpatterns : ∀ pattern, pattern ∈ patterns ↔ pattern ∈ patterns') :
    selectEntries entries patterns = selectEntries entries' patterns' := by
  unfold selectEntries
  rw [sortNames_congr hentries, sortNames_congr hpatterns]

theorem selectEntries_toList {entries patterns : List String} {selected : NameSet}
    (h : selectEntries entries patterns = .ok selected) :
    selectEntries selected.toList patterns = .ok selected := by
  obtain ⟨hmatched, hselected⟩ := selectEntries_eq_ok.mp h
  have hsub {entry : String} (hmem : entry ∈ selected.toList) : entry ∈ entries := by
    obtain ⟨pattern, hhits⟩ := (hselected entry).mp (by simpa using hmem)
    exact hhits.mem_entries
  -- which pattern takes a name does not depend on the other names, and all takings are kept
  have hidle (pattern : String) :
      Idle selected.toList patterns pattern ↔ Idle entries patterns pattern := by
    constructor
    · intro hidle entry hmem htakes
      have hhits : Hits entries patterns entry pattern :=
        ⟨hmem, htakes.decides.mem, htakes.selects, .inl htakes⟩
      exact hidle entry (by simpa using (hselected entry).mpr ⟨pattern, hhits⟩) htakes
    · intro hidle entry hmem
      exact hidle entry (hsub hmem)
  have hhits (entry pattern : String) :
      Hits selected.toList patterns entry pattern ↔ Hits entries patterns entry pattern := by
    constructor
    · rintro ⟨hmem, hpattern, hselects, hfound⟩
      exact ⟨hsub hmem, hpattern, hselects, hfound.imp id (hidle pattern).mp⟩
    · intro hhits
      have hmem : entry ∈ selected.toList := by simpa using (hselected entry).mpr ⟨pattern, hhits⟩
      exact ⟨hmem, hhits.mem_patterns, hhits.selects, hhits.found.imp id (hidle pattern).mpr⟩
  refine selectEntries_eq_ok.mpr ⟨fun pattern hpattern => ?_, fun entry => ?_⟩
  · obtain ⟨entry, hhit⟩ := (exists_hits_iff hpattern).mpr (hmatched pattern hpattern)
    have hhit' := (hhits entry pattern).mpr hhit
    exact ⟨entry, hhit'.mem_entries, hhit'.selects⟩
  · simp only [hselected, hhits]

/-- A selection does not depend on the order and the number of names and patterns, and what has been
selected is selected again. -/
theorem selection_isStable :
    (∀ {entries entries' patterns patterns' : List String},
      (∀ entry, entry ∈ entries ↔ entry ∈ entries') →
      (∀ pattern, pattern ∈ patterns ↔ pattern ∈ patterns') →
      selectEntries entries patterns = selectEntries entries' patterns') ∧
    ∀ {entries patterns : List String} {selected : NameSet},
      selectEntries entries patterns = .ok selected →
      selectEntries selected.toList patterns = .ok selected :=
  ⟨selectEntries_congr, selectEntries_toList⟩

/-- No pattern has a character before the star in it, and no name that starts like a pattern comes
before the pattern. -/
structure Selection.Ordinary (entries patterns : List String) : Prop where
  chars : ∀ pattern ∈ patterns, ∀ char ∈ pattern.toList, '*' ≤ char
  starts : ∀ pattern ∈ patterns, ∀ entry ∈ entries,
    startsWith entry (Pattern.ofText pattern).stem = true →
      (Pattern.ofText pattern).place entry ≠ .lt

/-- The pattern that decides about an ordinary name that is selected does not come behind it. -/
theorem Selection.Ordinary.place_ne_lt {entries patterns : List String}
    (h : Ordinary entries patterns) {entry pattern decider : String} (hentry : entry ∈ entries)
    (hpattern : pattern ∈ patterns) (hselects : (Pattern.ofText pattern).selects entry = true)
    (hdecides : Decides patterns decider entry) :
    (Pattern.ofText decider).place entry ≠ .lt := by
  by_cases hstart : startsWith entry (Pattern.ofText decider).stem = true
  · exact h.starts decider hdecides.mem entry hentry hstart
  · have hle : decider ≤ pattern := by
      by_contra hlt
      have hbehind := hdecides.behind pattern hpattern (not_le.mp hlt)
      rw [Pattern.place_eq_eq_iff.mpr hselects] at hbehind
      cases hbehind
    have hne : decider ≠ pattern := by
      rintro rfl
      exact hstart (Pattern.startsWith_stem hselects)
    have hlt : decider < pattern := lt_of_le_of_ne hle hne
    exact Pattern.place_ne_lt hlt hselects (h.chars decider hdecides.mem) hstart

theorem Selection.Ordinary.exists_takes {entries patterns : List String}
    (h : Ordinary entries patterns) {entry pattern : String} (hentry : entry ∈ entries)
    (hpattern : pattern ∈ patterns) (hselects : (Pattern.ofText pattern).selects entry = true) :
    ∃ taker, Takes patterns taker entry := by
  obtain ⟨decider, hdecides⟩ := exists_decides hpattern hselects
  have hplace := h.place_ne_lt hentry hpattern hselects hdecides
  refine ⟨decider, hdecides, Pattern.place_eq_eq_iff.mp ?_⟩
  cases hcase : (Pattern.ofText decider).place entry with
  | lt => exact absurd hcase hplace
  | eq => rfl
  | gt => exact absurd hcase hdecides.notBehind

/-- Of the names that patterns select, those are missed that the pattern deciding about them does
not select, if each pattern that does select them takes another name. No name is missed if names
and patterns are ordinary. -/
theorem selectEntries_misses_iff {entries patterns : List String} {selected : NameSet}
    (h : selectEntries entries patterns = .ok selected) :
    (∀ entry ∈ selected, entry ∈ entries ∧
      ∃ pattern ∈ patterns, (Pattern.ofText pattern).selects entry = true) ∧
    (∀ entry ∈ entries, (∃ pattern ∈ patterns, (Pattern.ofText pattern).selects entry = true) →
      (entry ∉ selected ↔
        (∃ pattern, Decides patterns pattern entry ∧ (Pattern.ofText pattern).place entry = .lt) ∧
        ∀ pattern ∈ patterns, (Pattern.ofText pattern).selects entry = true →
          ∃ other ∈ entries, Takes patterns pattern other)) ∧
    (Ordinary entries patterns → ∀ entry ∈ entries,
      (∃ pattern ∈ patterns, (Pattern.ofText pattern).selects entry = true) →
        entry ∈ selected) := by
  obtain ⟨-, hselected⟩ := selectEntries_eq_ok.mp h
  refine ⟨fun entry hmem => ?_, fun entry hentry hmatched => ?_, fun hordinary entry hentry => ?_⟩
  · obtain ⟨pattern, hhits⟩ := (hselected entry).mp hmem
    exact ⟨hhits.mem_entries, pattern, hhits.mem_patterns, hhits.selects⟩
  · rw [hselected]
    exact not_exists_hits_iff hentry hmatched
  · rintro ⟨pattern, hpattern, hselects⟩
    obtain ⟨taker, htakes⟩ := hordinary.exists_takes hentry hpattern hselects
    have hhits : Hits entries patterns entry taker :=
      ⟨hentry, htakes.decides.mem, htakes.selects, .inl htakes⟩
    exact (hselected entry).mpr ⟨taker, hhits⟩

/-- The classes of a family, two of them nested. -/
def nestedEntries : List String := ["a/A$B.class", "a/A$C.class", "a/A.class"]

theorem exists_selected {entries patterns names : List String}
    (h : (selectEntries entries patterns).toOption.map (·.toList) = some names) :
    ∃ selected, selectEntries entries patterns = .ok selected ∧
      ∀ entry, entry ∈ selected ↔ entry ∈ names := by
  obtain ⟨selected, hselected, rfl⟩ := Option.map_eq_some_iff.mp h
  exact ⟨selected, toOption_eq_some.mp hselected, fun entry => by simp⟩

/-- Of two patterns that overlap, the one for a nested class hides another nested class from the one
for the family. -/
theorem selectEntries_misses_nested : ∃ selected,
    selectEntries nestedEntries ["a/A*", "a/A$C"] = .ok selected ∧
      "a/A$B.class" ∈ nestedEntries ∧
      (Pattern.ofText "a/A*").selects "a/A$B.class" = true ∧ "a/A$B.class" ∉ selected := by
  have hrun : (selectEntries nestedEntries ["a/A*", "a/A$C"]).toOption.map (·.toList) =
      some ["a/A$C.class", "a/A.class"] := by decide +kernel
  obtain ⟨selected, hselected, hmem⟩ := exists_selected hrun
  refine ⟨selected, hselected, by decide, by decide, ?_⟩
  rw [hmem]
  decide

/-- The nested class that is hidden by one pattern is found when another one takes its place. -/
theorem selectEntries_misses_of_nested :
    (∃ selected, selectEntries nestedEntries ["a/A*", "a/A$C"] = .ok selected ∧
      "a/A$B.class" ∉ selected) ∧
    ∃ selected, selectEntries nestedEntries ["a/A*", "a/A"] = .ok selected ∧
      "a/A$B.class" ∈ selected := by
  have hrun : (selectEntries nestedEntries ["a/A*", "a/A$C"]).toOption.map (·.toList) =
      some ["a/A$C.class", "a/A.class"] := by decide +kernel
  have hrun' : (selectEntries nestedEntries ["a/A*", "a/A"]).toOption.map (·.toList) =
      some nestedEntries := by decide +kernel
  obtain ⟨selected, hselected, -⟩ := exists_selected hrun
  obtain ⟨selected', hselected', -⟩ := exists_selected hrun'
  refine ⟨⟨selected, hselected, ?_⟩, selected', hselected', ?_⟩
  · have hdecides : Decides ["a/A*", "a/A$C"] "a/A$C" "a/A$B.class" :=
      ⟨by decide, by decide, by decide⟩
    have htakes : Takes ["a/A*", "a/A$C"] "a/A*" "a/A.class" :=
      ⟨⟨by decide, by decide, by decide⟩, by decide⟩
    obtain ⟨-, hmisses, -⟩ := selectEntries_misses_iff hselected
    refine (hmisses "a/A$B.class" (by decide) ⟨"a/A*", by decide, by decide⟩).mpr
      ⟨⟨_, hdecides, by decide⟩, fun pattern hpattern hselects => ?_⟩
    rcases List.mem_cons.mp hpattern with rfl | hpattern
    · exact ⟨"a/A.class", by decide, htakes⟩
    · obtain rfl := List.mem_singleton.mp hpattern
      exact absurd hselects (by decide)
  · have hchars : ["a/A*", "a/A"].all fun pattern => pattern.toList.all ('*' ≤ ·) := by decide
    simp only [List.all_eq_true, decide_eq_true_eq] at hchars
    have hordinary : Ordinary nestedEntries ["a/A*", "a/A"] := ⟨hchars, by decide⟩
    exact (selectEntries_misses_iff hselected').2.2 hordinary "a/A$B.class" (by decide)
      ⟨"a/A*", by decide, by decide⟩

/-- Repeated and reordered names and patterns give the same selection, and so do its own names. -/
theorem selection_isStable_of_nested :
    selectEntries nestedEntries ["a/A*", "a/A$C"] =
      selectEntries (nestedEntries.reverse ++ nestedEntries) ["a/A$C", "a/A*", "a/A*"] ∧
    ∃ selected, selectEntries nestedEntries ["a/A*", "a/A$C"] = .ok selected ∧
      selectEntries selected.toList ["a/A*", "a/A$C"] = .ok selected := by
  have hrun : (selectEntries nestedEntries ["a/A*", "a/A$C"]).toOption.map (·.toList) =
      some ["a/A$C.class", "a/A.class"] := by decide +kernel
  obtain ⟨selected, hselected, -⟩ := exists_selected hrun
  exact ⟨selection_isStable.1 (by simp) (by simp [or_comm]), selected, hselected,
    selection_isStable.2 hselected⟩

end StaticCompanion
