import StaticCompanion.MemberKey

/-!
# Selecting classes by name

A pattern names a top-level class, whose nested classes it takes along, or a family of names with a
common start. Names and patterns are sorted and walked side by side, so a name is held against one
pattern at a time. A pattern that the walk passes over, as happens where patterns overlap, is held
against every name afterwards.
-/
namespace StaticCompanion

def classSuffix : String := ".class"

def startsWith (text start : String) : Bool := start.toList.isPrefixOf text.toList

def endsWith (text ending : String) : Bool := ending.toList.isSuffixOf text.toList

def isClassEntry (name : String) : Bool := endsWith name classSuffix

/-- Which entries are selected. -/
inductive Pattern where
  | topLevel (name : String)
  | family (start : String)
  deriving DecidableEq, Repr

namespace Pattern

/-- The pattern of a text: a star at its end stands for any ending. -/
def ofText (text : String) : Pattern :=
  if text.toList.getLast? = some '*' then .family (String.ofList text.toList.dropLast)
  else .topLevel text

def selects : Pattern → String → Bool
  | topLevel name, entry => entry == name ++ classSuffix || startsWith entry (name ++ "$")
  | family start, entry => startsWith entry start

/-- The name that stands for the pattern in the order of names. -/
def landmark : Pattern → String
  | topLevel name => name ++ classSuffix
  | family start => start

/-- Where an entry stands to the pattern: `eq` if it is selected, else before or behind it. -/
def place (pattern : Pattern) (entry : String) : Ordering :=
  if pattern.selects entry then .eq else compare entry pattern.landmark

theorem selects_landmark (pattern : Pattern) : pattern.selects pattern.landmark = true := by
  cases pattern <;> simp [selects, landmark, startsWith]

theorem place_eq_eq_iff {pattern : Pattern} {entry : String} :
    pattern.place entry = .eq ↔ pattern.selects entry = true := by
  unfold place
  constructor
  · intro placed
    split at placed
    · assumption
    · rw [Std.LawfulEqOrd.eq_of_compare placed]
      exact pattern.selects_landmark
  · intro selected
    simp [selected]

end Pattern

namespace Selection

/-- A walk along sorted names and sorted patterns. Gives each name that is selected with the pattern
that selects it. -/
def walk : (entries patterns : List String) → List (String × String)
  | entry :: entries, pattern :: patterns =>
    match (Pattern.ofText pattern).place entry with
    | .eq => (entry, pattern) :: walk entries (pattern :: patterns)
    | .lt => walk entries (pattern :: patterns)
    | .gt => walk (entry :: entries) patterns
  | _, _ => []
termination_by entries patterns => entries.length + patterns.length

def search (entries patterns : List String) : List (String × String) :=
  patterns.flatMap fun pattern =>
    (entries.filter (Pattern.ofText pattern).selects).map (·, pattern)

/-- A search hits exactly the pairs in which the pattern selects the name. -/
@[simp]
theorem mem_search {entries patterns : List String} {hit : String × String} :
    hit ∈ search entries patterns ↔
      hit.1 ∈ entries ∧ hit.2 ∈ patterns ∧ (Pattern.ofText hit.2).selects hit.1 = true := by
  obtain ⟨entry, pattern⟩ := hit
  simp only [search, List.mem_flatMap, List.mem_map, List.mem_filter, Prod.mk.injEq]
  constructor
  · rintro ⟨found, inPatterns, _, ⟨inEntries, selected⟩, rfl, rfl⟩
    exact ⟨inEntries, inPatterns, selected⟩
  · rintro ⟨inEntries, inPatterns, selected⟩
    exact ⟨pattern, inPatterns, entry, ⟨inEntries, selected⟩, rfl, rfl⟩

/-- The patterns that selected nothing. -/
def idle (patterns : List String) (hits : List (String × String)) : List String :=
  let used := Std.ExtTreeSet.ofList (hits.map Prod.snd)
  patterns.filter fun pattern => !used.contains pattern

@[simp]
theorem mem_idle {patterns : List String} {hits : List (String × String)} {pattern : String} :
    pattern ∈ idle patterns hits ↔ pattern ∈ patterns ∧ ∀ entry, (entry, pattern) ∉ hits := by
  simp [idle]

end Selection

def sortNames (names : List String) : List String := (Std.ExtTreeSet.ofList names).toList

@[simp]
theorem mem_sortNames {names : List String} {name : String} :
    name ∈ sortNames names ↔ name ∈ names := by
  simp [sortNames]

/-- The entries that patterns select, or the patterns that select none. -/
def selectEntries (entries patterns : List String) : Except (List String) NameSet :=
  let entries := sortNames entries
  let patterns := sortNames patterns
  let walked := Selection.walk entries patterns
  let hits := walked ++ Selection.search entries (Selection.idle patterns walked)
  match Selection.idle patterns hits with
  | [] => .ok (Std.ExtTreeSet.ofList (hits.map Prod.fst))
  | idle => .error idle

end StaticCompanion
